/-
Module: SotFs.Core.Paths
Layer: Core
Purpose: The resolution of a path to its parent directory and last name (`resolve_parent`). The path is cut
  at its last separator after trailing separators are trimmed, so the source does not see the components
  that `resolve_path` walks.
Trusted boundary: human-reviewed model
Main exports: trimSlashes, cutPath, TypeGraph.resolveParent
-/
import SotFs.Core.Graph

namespace SotFs

/-- `trim_end_matches('/')`. -/
def trimSlashes (path : List Char) : List Char := (path.reverse.dropWhile (· == '/')).reverse

/-- The parent path and the name: what is before and after the last separator, found by `rfind`. Without a
    separator, or with nothing before it, the parent is the root. -/
def cutPath (path : List Char) : List Char × List Char :=
  match path.reverse.span (· != '/') with
  | (_, []) => (['/'], path)
  | (name, _ :: parent) => (if parent = [] then ['/'] else parent.reverse, name.reverse)

namespace TypeGraph

/-- Resolve a path to its parent directory and last name. -/
def resolveParent (g : TypeGraph) (path : String) : Except GraphError (DirId × String) :=
  let (parentPath, name) := cutPath (trimSlashes path.toList)
  match g.resolvePath (String.ofList parentPath) with
  | .error e => .error e
  | .ok (parentDir, _) => .ok (parentDir, String.ofList name)

end TypeGraph

end SotFs
