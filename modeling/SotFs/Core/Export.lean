/-
Module: SotFs.Core.Export
Layer: Core
Purpose: The Graph Hunter export (`to_graph_hunter` in sotfs-graph/src/export.rs). An event is kept as a record
  with the timestamp it is sorted by; the document is the rendered events between its head and its foot. Nodes
  are named by a letter for their pool and their id.
Trusted boundary: human-reviewed model
Main exports: jsonStr, HunterNode, HunterEdge, GraphHunterEvent, TypeGraph.hunterEvents,
  TypeGraph.toGraphHunter
-/
import SotFs.Core.Graph

namespace SotFs

open Std Foundation

/-- A hexadecimal digit in lower case. -/
def hexDigit (n : Nat) : Char := Nat.digitChar n

/-- One character inside a JSON string. -/
def jsonChar (c : Char) : List Char :=
  if c = '\\' then ['\\', '\\']
  else if c = '"' then ['\\', '"']
  else if c = '\n' then ['\\', 'n']
  else if c = '\r' then ['\\', 'r']
  else if c = '\t' then ['\\', 't']
  else if c = Char.ofNat 8 then ['\\', 'b']
  else if c = Char.ofNat 12 then ['\\', 'f']
  else if c.toNat < 0x20 then ['\\', 'u', '0', '0', hexDigit (c.toNat / 16), hexDigit (c.toNat % 16)]
  else [c]

/-- `json_str`. -/
def jsonStr (s : String) : String := String.ofList ('"' :: s.toList.flatMap jsonChar ++ ['"'])

/-- The name of a node in the export. Only the five kinds of the export have nodes there; attributes are
    named by their edges only. -/
def NodeId.hunterName : NodeId → String
  | .inode id => "I" ++ toString id
  | .directory id => "D" ++ toString id
  | .capability id => "C" ++ toString id
  | .block id => "B" ++ toString id
  | .version id => "V" ++ toString id
  | .xattr id => "XA" ++ toString id
  | .transaction id => "T" ++ toString id

/-- The nodes that are exported, with the fields that are printed. -/
inductive HunterNode where
  | inode (inode : Inode)
  | directory (dir : Directory)
  | capability (cap : Capability)
  | block (block : Block)
  | version (ver : Version)

def HunterNode.id : HunterNode → NodeId
  | .inode i => .inode i.id
  | .directory d => .directory d.id
  | .capability c => .capability c.id
  | .block b => .block b.id
  | .version v => .version v.id

/-- An exported node or edge. -/
inductive GraphHunterEvent where
  | addNode (node : HunterNode)
  | addEdge (edge : Edge)

/-- The block of a `pointsTo` edge is named as a block. -/
def Edge.hunterTgt : Edge → NodeId
  | .pointsTo _ _ tgt _ => .block tgt
  | edge => edge.tgtNode

namespace GraphHunterEvent

/-- The word for what kind of file an inode is. -/
def vtypeName : VnodeType → String
  | .regular => "file"
  | .directory => "dir"
  | .symlink => "symlink"
  | .charDevice => "chardev"
  | .blockDevice => "blockdev"

/-- The fields of a node after its name. -/
def nodeFields : HunterNode → String
  | .inode i =>
      ",\"type\":\"inode\",\"vtype\":\"" ++ vtypeName i.vtype ++ "\",\"size\":" ++ toString i.size ++
        ",\"link_count\":" ++ toString i.linkCount ++ ",\"perms\":" ++ toString i.permissions.mode ++
        ",\"uid\":" ++ toString i.uid ++ ",\"gid\":" ++ toString i.gid
  | .directory d => ",\"type\":\"directory\",\"inode_id\":" ++ toString d.inodeId
  | .capability c =>
      ",\"type\":\"capability\",\"rights\":" ++ toString c.rights.bits ++ ",\"epoch\":" ++ toString c.epoch
  | .block b =>
      ",\"type\":\"block\",\"sectors\":" ++ toString b.sectorCount ++ ",\"refcount\":" ++ toString b.refcount
  | .version v => ",\"type\":\"version\",\"root\":" ++ toString v.rootInodeId

/-- The fields of an edge after its endpoints. -/
def edgeFields : Edge → String
  | .contains _ _ _ name => ",\"type\":\"contains\",\"name\":" ++ jsonStr name
  | .grants _ _ _ rights => ",\"type\":\"grants\",\"rights\":" ++ toString rights.bits
  | .delegates .. => ",\"type\":\"delegates\""
  | .derivedFrom .. => ",\"type\":\"derivesFrom\""
  | .supersedes .. => ",\"type\":\"supersedes\""
  | .pointsTo _ _ _ offset => ",\"type\":\"pointsTo\",\"offset\":" ++ toString offset
  | .hasXattr .. => ",\"type\":\"hasXattr\""

/-- The JSON object of an event. -/
def render (t : Timestamp) : GraphHunterEvent → String
  | .addNode node =>
      "\x7b\"t\":" ++ toString t ++ ",\"op\":\"add_node\",\"id\":\"" ++ node.id.hunterName ++ "\"" ++
        nodeFields node ++ "\x7d"
  | .addEdge edge =>
      "\x7b\"t\":" ++ toString t ++ ",\"op\":\"add_edge\",\"id\":" ++ toString edge.id ++ ",\"src\":\"" ++
        edge.srcNode.hunterName ++ "\",\"tgt\":\"" ++ edge.hunterTgt.hunterName ++ "\"" ++
        edgeFields edge ++ "\x7d"

end GraphHunterEvent

namespace TypeGraph

/-- The creation time of an inode, `0` when it is unknown. -/
def ctimeOf (g : TypeGraph) (id : InodeId) : Timestamp := ((g.getInode id).map Inode.ctime).getD 0

/-- The timestamp that an exported node gets. -/
def nodeTime (g : TypeGraph) : HunterNode → Timestamp
  | .inode i => i.ctime
  | .directory d => g.ctimeOf d.inodeId
  | .capability c => c.epoch
  | .block _ => 0
  | .version v => v.timestamp

/-- The timestamp that an exported edge gets. -/
def edgeTime (g : TypeGraph) : Edge → Timestamp
  | .contains _ _ tgt _ => g.ctimeOf tgt
  | .grants _ src _ _ => ((g.getCap src).map Capability.epoch).getD 0
  | .derivedFrom _ src _ =>
      ((g.versions.iter.find? fun entry => entry.2.id = src).map fun entry => entry.2.timestamp).getD 0
  | .delegates .. | .supersedes .. | .pointsTo .. | .hasXattr .. => 0

/-- The exported nodes, pool by pool. -/
def hunterNodes (g : TypeGraph) : List HunterNode :=
  g.inodes.iter.map (fun entry => .inode entry.2) ++ g.dirs.iter.map (fun entry => .directory entry.2) ++
    g.caps.iter.map (fun entry => .capability entry.2) ++ g.blocks.iter.map (fun entry => .block entry.2) ++
    g.versions.iter.map (fun entry => .version entry.2)

/-- The events in the order they are collected: the nodes, then the edges. -/
def collectedEvents (g : TypeGraph) : List (Timestamp × GraphHunterEvent) :=
  g.hunterNodes.map (fun node => (g.nodeTime node, .addNode node)) ++
    g.edges.iter.map fun entry => (g.edgeTime entry.2, .addEdge entry.2)

/-- The events in the order they are given: `sort_by_key` on the timestamp, which is stable. -/
def hunterEvents (g : TypeGraph) : List (Timestamp × GraphHunterEvent) :=
  g.collectedEvents.mergeSort fun a b => a.1 ≤ b.1

/-- The head of the document. -/
def hunterMeta (g : TypeGraph) : String :=
  "\x7b\"format\":\"graph-hunter-temporal\",\"version\":1,\"node_count\":" ++
    toString (g.inodes.len + g.dirs.len + g.caps.len + g.blocks.len + g.versions.len) ++
    ",\"edge_count\":" ++ toString g.edges.len ++
    ",\"node_types\":[\"inode\",\"directory\",\"capability\",\"block\",\"version\"],\"edge_types\":" ++
    "[\"contains\",\"grants\",\"delegates\",\"derivesFrom\",\"supersedes\",\"pointsTo\",\"hasXattr\"]\x7d"

/-- `to_graph_hunter`. -/
def toGraphHunter (g : TypeGraph) : String :=
  "\x7b\n  \"meta\": " ++ g.hunterMeta ++ ",\n  \"events\": [\n    " ++
    ",\n    ".intercalate (g.hunterEvents.map fun event => event.2.render event.1) ++ "\n  ]\n\x7d"

end TypeGraph

end SotFs
