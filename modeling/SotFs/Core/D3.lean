/-
Module: SotFs.Core.D3
Layer: Core
Purpose: The D3.js export (`to_d3_json` in sotfs-graph/src/export.rs): the nodes of the five exported pools and a
  link for every edge, each a JSON object of its own. Nodes are named, and links are labelled, as in the Graph
  Hunter export; no node stands for an attribute.
Trusted boundary: human-reviewed model
Main exports: HunterNode.d3, Edge.d3, TypeGraph.toD3Json
-/
import SotFs.Core.Export

namespace SotFs

open Std Foundation
open GraphHunterEvent (vtypeName edgeFields)

/-- The fields of a node after its name. -/
def HunterNode.d3Fields : HunterNode → String
  | .inode i =>
      ",\"type\":\"inode\",\"vtype\":\"" ++ vtypeName i.vtype ++ "\",\"size\":" ++ toString i.size ++
        ",\"link_count\":" ++ toString i.linkCount ++ ",\"uid\":" ++ toString i.uid ++ ",\"gid\":" ++
        toString i.gid ++ ",\"mtime\":" ++ toString i.mtime
  | .directory d => ",\"type\":\"directory\",\"inode_id\":" ++ toString d.inodeId
  | .capability c =>
      ",\"type\":\"capability\",\"rights\":" ++ toString c.rights.bits ++ ",\"epoch\":" ++ toString c.epoch
  | .block b =>
      ",\"type\":\"block\",\"sector_start\":" ++ toString b.sectorStart ++ ",\"sector_count\":" ++
        toString b.sectorCount ++ ",\"refcount\":" ++ toString b.refcount
  | .version v =>
      ",\"type\":\"version\",\"timestamp\":" ++ toString v.timestamp ++ ",\"root_inode\":" ++
        toString v.rootInodeId

/-- The JSON object of a node. -/
def HunterNode.d3 (node : HunterNode) : String :=
  "\x7b\"id\":\"" ++ node.id.hunterName ++ "\"" ++ node.d3Fields ++ "\x7d"

/-- The JSON object of a link. -/
def Edge.d3 (edge : Edge) : String :=
  "\x7b\"id\":" ++ toString edge.id ++ ",\"source\":\"" ++ edge.srcNode.hunterName ++ "\",\"target\":\"" ++
    edge.hunterTgt.hunterName ++ "\"" ++ edgeFields edge ++ "\x7d"

/-- `to_d3_json`. -/
def TypeGraph.toD3Json (g : TypeGraph) : String :=
  "\x7b\n  \"nodes\": [\n    " ++ ",\n    ".intercalate (g.hunterNodes.map HunterNode.d3) ++
    "\n  ],\n  \"links\": [\n    " ++ ",\n    ".intercalate (g.edges.iter.map fun entry => entry.2.d3) ++
    "\n  ]\n\x7d"

end SotFs
