/-
Module: SotFs.Spec.ExportDocuments
Layer: Spec
Purpose: What the two JSON exports say, as values: every exported record and every edge is an object with the
  record's own numbers and names. Nothing is said of how they are written.
Trusted boundary: human-reviewed specification
Main exports: HunterNode.document, Edge.document, TypeGraph.d3Document, GraphHunterEvent.document,
  TypeGraph.hunterDocument
-/
import SotFs.Foundation.Json
import SotFs.Core.D3

namespace SotFs

open Std Foundation

/-- A field of an object. -/
def jsonField (name : String) (v : Json) : List Char × Json := (name.toList, v)

/-- A text as a value. -/
def jsonText (s : String) : Json := .str s.toList

/-- What an edge of each kind says beside its ends. -/
def Edge.label : Edge → List (List Char × Json)
  | .contains _ _ _ name => [jsonField "type" (jsonText "contains"), jsonField "name" (jsonText name)]
  | .grants _ _ _ rights => [jsonField "type" (jsonText "grants"), jsonField "rights" (.num rights.bits.toNat)]
  | .delegates .. => [jsonField "type" (jsonText "delegates")]
  | .derivedFrom .. => [jsonField "type" (jsonText "derivesFrom")]
  | .supersedes .. => [jsonField "type" (jsonText "supersedes")]
  | .pointsTo _ _ _ offset => [jsonField "type" (jsonText "pointsTo"), jsonField "offset" (.num offset)]
  | .hasXattr .. => [jsonField "type" (jsonText "hasXattr")]

/-! ### D3 -/

/-- What a node says beside its name. -/
def HunterNode.record : HunterNode → List (List Char × Json)
  | .inode i =>
      [jsonField "type" (jsonText "inode"), jsonField "vtype" (jsonText (GraphHunterEvent.vtypeName i.vtype)),
        jsonField "size" (.num i.size), jsonField "link_count" (.num i.linkCount),
        jsonField "uid" (.num i.uid.toNat), jsonField "gid" (.num i.gid.toNat), jsonField "mtime" (.num i.mtime)]
  | .directory d => [jsonField "type" (jsonText "directory"), jsonField "inode_id" (.num d.inodeId)]
  | .capability c =>
      [jsonField "type" (jsonText "capability"), jsonField "rights" (.num c.rights.bits.toNat),
        jsonField "epoch" (.num c.epoch)]
  | .block b =>
      [jsonField "type" (jsonText "block"), jsonField "sector_start" (.num b.sectorStart),
        jsonField "sector_count" (.num b.sectorCount), jsonField "refcount" (.num b.refcount)]
  | .version v =>
      [jsonField "type" (jsonText "version"), jsonField "timestamp" (.num v.timestamp),
        jsonField "root_inode" (.num v.rootInodeId)]

def HunterNode.document (node : HunterNode) : Json :=
  .obj (jsonField "id" (jsonText node.id.hunterName) :: node.record)

def Edge.document (edge : Edge) : Json :=
  .obj (jsonField "id" (.num edge.id) :: jsonField "source" (jsonText edge.srcNode.hunterName) ::
    jsonField "target" (jsonText edge.hunterTgt.hunterName) :: edge.label)

/-- The nodes and the links, in the order of the pools. -/
def TypeGraph.d3Document (g : TypeGraph) : Json :=
  .obj [jsonField "nodes" (.arr (g.hunterNodes.map HunterNode.document)),
    jsonField "links" (.arr (g.edges.iter.map fun entry => entry.2.document))]

/-! ### Graph Hunter -/

/-- What a node of the event list says beside its name. -/
def HunterNode.eventRecord : HunterNode → List (List Char × Json)
  | .inode i =>
      [jsonField "type" (jsonText "inode"), jsonField "vtype" (jsonText (GraphHunterEvent.vtypeName i.vtype)),
        jsonField "size" (.num i.size), jsonField "link_count" (.num i.linkCount),
        jsonField "perms" (.num i.permissions.mode.toNat), jsonField "uid" (.num i.uid.toNat),
        jsonField "gid" (.num i.gid.toNat)]
  | .directory d => [jsonField "type" (jsonText "directory"), jsonField "inode_id" (.num d.inodeId)]
  | .capability c =>
      [jsonField "type" (jsonText "capability"), jsonField "rights" (.num c.rights.bits.toNat),
        jsonField "epoch" (.num c.epoch)]
  | .block b =>
      [jsonField "type" (jsonText "block"), jsonField "sectors" (.num b.sectorCount),
        jsonField "refcount" (.num b.refcount)]
  | .version v => [jsonField "type" (jsonText "version"), jsonField "root" (.num v.rootInodeId)]

/-- What an event at its time says. -/
def GraphHunterEvent.fields (t : Timestamp) : GraphHunterEvent → List (List Char × Json)
  | .addNode node =>
      jsonField "t" (.num t) :: jsonField "op" (jsonText "add_node") ::
        jsonField "id" (jsonText node.id.hunterName) :: node.eventRecord
  | .addEdge edge =>
      jsonField "t" (.num t) :: jsonField "op" (jsonText "add_edge") :: jsonField "id" (.num edge.id) ::
        jsonField "src" (jsonText edge.srcNode.hunterName) ::
          jsonField "tgt" (jsonText edge.hunterTgt.hunterName) :: edge.label

def GraphHunterEvent.document (t : Timestamp) (event : GraphHunterEvent) : Json := .obj (event.fields t)

/-- The head of the event list: how many nodes and edges there are, and of which kinds they may be. -/
def TypeGraph.hunterHead (g : TypeGraph) : Json :=
  .obj [jsonField "format" (jsonText "graph-hunter-temporal"), jsonField "version" (.num 1),
    jsonField "node_count" (.num (g.inodes.len + g.dirs.len + g.caps.len + g.blocks.len + g.versions.len)),
    jsonField "edge_count" (.num g.edges.len),
    jsonField "node_types" (.arr (["inode", "directory", "capability", "block", "version"].map jsonText)),
    jsonField "edge_types" (.arr (["contains", "grants", "delegates", "derivesFrom", "supersedes", "pointsTo",
      "hasXattr"].map jsonText))]

/-- The head and the events, in the order of their times. -/
def TypeGraph.hunterDocument (g : TypeGraph) : Json :=
  .obj [jsonField "meta" g.hunterHead,
    jsonField "events" (.arr (g.hunterEvents.map fun event => event.2.document event.1))]

end SotFs
