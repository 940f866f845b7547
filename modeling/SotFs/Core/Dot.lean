/-
Module: SotFs.Core.Dot
Layer: Core
Purpose: The GraphViz export (`to_dot` in sotfs-graph/src/export.rs). The document is its head, a statement for
  each node and each edge of the pools, and a closing brace. The labels are made of numbers and fixed words,
  but for the one of a directory entry, which is its name with a backslash before each quote.
Trusted boundary: human-reviewed model
Main exports: DotStyle, formatRights, Edge.dotLine, TypeGraph.toDot
-/
import SotFs.Core.Graph
import SotFs.Foundation.StringLiteral

namespace SotFs

open Std Foundation

/-- What the labels show. -/
structure DotStyle where
  showSizes : Bool := true
  showRights : Bool := true
  showBlocks : Bool := false
  showXattrs : Bool := true
deriving DecidableEq, Repr

/-- `format_rights`. -/
def formatRights (r : Rights) : String :=
  let s := (if r.contains Rights.read then "r" else "") ++ (if r.contains Rights.write then "w" else "") ++
    (if r.contains Rights.execute then "x" else "") ++ (if r.contains Rights.grant then "g" else "") ++
    (if r.contains Rights.revoke then "v" else "")
  if s.isEmpty then "none" else s

/-- The word for what kind of file an inode is. -/
def VnodeType.dotName : VnodeType → String
  | .regular => "file"
  | .directory => "dir"
  | .symlink => "sym"
  | .charDevice => "chr"
  | .blockDevice => "blk"

/-- The fill color of an inode. -/
def VnodeType.dotColor : VnodeType → String
  | .directory => "gold"
  | .symlink => "plum"
  | _ => "lightblue"

namespace TypeGraph

/-- The label of an inode. Its parts are set apart by the two characters of a newline escape. -/
def dotInodeLabel (g : TypeGraph) (style : DotStyle) (i : Inode) : String :=
  "I" ++ toString i.id ++ "\\n" ++ i.vtype.dotName ++ "\\nlc=" ++ toString i.linkCount ++
    (if style.showSizes && i.vtype == .regular then "\\n" ++ toString i.size ++ "B" else "") ++
    (if style.showXattrs then
      match g.inodeXattrs[i.id]? with
      | some xids => if xids.isEmpty then "" else "\\nxa:" ++ toString xids.size
      | none => ""
    else "")

def dotInode (g : TypeGraph) (style : DotStyle) (i : Inode) : String :=
  "  I" ++ toString i.id ++ " [label=\"" ++ g.dotInodeLabel style i ++
    "\", shape=box, style=filled, fillcolor=" ++ i.vtype.dotColor ++ "];\n"

end TypeGraph

def Directory.dotLine (d : Directory) : String :=
  "  D" ++ toString d.id ++ " [label=\"D" ++ toString d.id ++ "\\nino=" ++ toString d.inodeId ++
    "\", shape=folder, style=filled, fillcolor=lightyellow];\n"

def Capability.dotLine (c : Capability) : String :=
  "  C" ++ toString c.id ++ " [label=\"C" ++ toString c.id ++ "\\n" ++ formatRights c.rights ++
    "\", shape=diamond, style=filled, fillcolor=lightgreen];\n"

def Block.dotLine (style : DotStyle) (b : Block) : String :=
  "  B" ++ toString b.id ++ " [label=\"B" ++ toString b.id ++ "\\nrc=" ++ toString b.refcount ++
    (if style.showBlocks then "\\nsec " ++ toString b.sectorStart ++ "+" ++ toString b.sectorCount else "") ++
    "\", shape=cylinder, style=filled, fillcolor=lightcoral];\n"

def Version.dotLine (v : Version) : String :=
  "  V" ++ toString v.id ++ " [label=\"V" ++ toString v.id ++ "\\nt=" ++ toString v.timestamp ++
    "\", shape=oval, style=filled, fillcolor=lavender];\n"

/-- The statement of a directory entry up to the opening quote of its label, and behind the closing one. -/
def dotContainsHead (src : DirId) (tgt : InodeId) : String :=
  "  D" ++ toString src ++ " -> I" ++ toString tgt ++ " [label="

def dotContainsFoot : String := ", color=black];\n"

/-- The statement of an edge. -/
def Edge.dotLine (style : DotStyle) : Edge → String
  | .contains _ src tgt name =>
      -- `name.replace('\"', "\\\"")`
      dotContainsHead src tgt ++ "\"" ++ String.ofList (escapeQuotes name.toList) ++ "\"" ++ dotContainsFoot
  | .grants _ src tgt rights =>
      "  C" ++ toString src ++ " -> I" ++ toString tgt ++ " [label=\"" ++
        (if style.showRights then formatRights rights else "grants") ++ "\", style=dashed, color=green4];\n"
  | .delegates _ src tgt =>
      "  C" ++ toString src ++ " -> C" ++ toString tgt ++
        " [label=\"delegates\", style=dotted, color=purple];\n"
  | .derivedFrom _ src tgt =>
      "  V" ++ toString src ++ " -> V" ++ toString tgt ++ " [label=\"derives\", style=dashed, color=blue];\n"
  | .supersedes _ src tgt =>
      "  I" ++ toString src ++ " -> I" ++ toString tgt ++ " [label=\"supersedes\", style=bold, color=red];\n"
  | .pointsTo _ src tgt offset =>
      "  I" ++ toString src ++ " -> B" ++ toString tgt ++ " [label=\"@" ++ toString offset ++
        "\", color=gray50];\n"
  | .hasXattr _ src tgt =>
      "  I" ++ toString src ++ " -> XA" ++ toString tgt ++ " [style=dotted, color=orange];\n"

/-- The statements of some edges, in order. -/
def dotEdges (style : DotStyle) (edges : List Edge) : String := String.join (edges.map (Edge.dotLine style))

namespace TypeGraph

/-- The document up to its edges: the head and the nodes, pool by pool. -/
def dotNodes (g : TypeGraph) (style : DotStyle) : String :=
  "digraph sotFS \x7b\n" ++ "  rankdir=TB;\n" ++ "  node [fontname=\"monospace\", fontsize=10];\n" ++
    "  edge [fontname=\"monospace\", fontsize=8];\n\n" ++
    String.join (g.inodes.iter.map fun entry => g.dotInode style entry.2) ++
    String.join (g.dirs.iter.map fun entry => entry.2.dotLine) ++
    String.join (g.caps.iter.map fun entry => entry.2.dotLine) ++
    String.join (g.blocks.iter.map fun entry => entry.2.dotLine style) ++
    String.join (g.versions.iter.map fun entry => entry.2.dotLine) ++ "\n"

/-- `to_dot`. -/
def toDot (g : TypeGraph) (style : DotStyle) : String :=
  g.dotNodes style ++ dotEdges style (g.edges.iter.map Prod.snd) ++ "\x7d\n"

end TypeGraph

end SotFs
