/-
Module: SotFs.Core.Descents
Layer: Core
Purpose: The three recursive searches of the directory graph (`is_ancestor`, `has_cycle_from` and
  `has_cycle_dfs`) once more, with the depth of the recursion as a bound that may be exceeded: `none` is a
  recursion that gets deeper. What the searches do otherwise is as in the unbounded definitions.
Trusted boundary: human-reviewed model
Main exports: TypeGraph.isAncestorWithin, TypeGraph.hasCycleFromWithin, TypeGraph.checkNoDirCyclesWithin,
  TypeGraph.hasCycleDfsWithin, TypeGraph.fsckCyclesWithin
-/
import SotFs.Foundation.Descent
import SotFs.Core.Fsck

namespace SotFs

open Std Foundation

namespace TypeGraph

variable (g : TypeGraph)

/-- `is_ancestor`: the search below `ancestorDir`, which may be the target itself. -/
def isAncestorWithin (depth : Nat) (ancestorDir descendantDir : DirId) : Option Bool :=
  ((Descent.targetSearch g.childDirs descendantDir).run depth ancestorDir ∅).map Prod.fst

/-- `has_cycle_from`. -/
def hasCycleFromWithin (depth : Nat) (start : DirId) (visited : Finset DirId) :
    Option (Bool × Finset DirId) :=
  (Descent.pathSearch g.childDirs).run depth start visited

/-- The loop of `check_no_dir_cycles`: the first directory from which a cycle is found. -/
def checkNoDirCyclesWithin (depth : Nat) : List DirId → Option (Except Violation Unit)
  | [] => some (.ok ())
  | dirId :: dirs =>
      match g.hasCycleFromWithin depth dirId ∅ with
      | none => none
      | some (true, _) => some (.error (.directoryCycle dirId))
      | some (false, _) => checkNoDirCyclesWithin depth dirs

/-- `has_cycle_dfs`: the directory itself is entered without a look at what was met. -/
def hasCycleDfsWithin : Nat → DirId → Finset DirId × Finset DirId →
    Option (Bool × (Finset DirId × Finset DirId))
  | 0, _, _ => none
  | depth + 1, dir, met =>
      match firstChild ((Descent.markSearch g.childDirs).run depth) (g.childDirs dir)
          (insert dir met.1, insert dir met.2) with
      | none => none
      | some (true, met) => some (true, met)
      | some (false, met) => some (false, (met.1, met.2.erase dir))

/-- The loop of `fsck` over the directories. -/
def fsckCyclesWithin (depth : Nat) :
    List DirId → List FsckError × (Finset DirId × Finset DirId) →
      Option (List FsckError × (Finset DirId × Finset DirId))
  | [], acc => some acc
  | dir :: dirs, acc =>
      if dir ∈ acc.2.1 then fsckCyclesWithin depth dirs acc
      else
        match g.hasCycleDfsWithin depth dir acc.2 with
        | none => none
        | some (true, met) => fsckCyclesWithin depth dirs (acc.1 ++ [.dirCycle dir], met)
        | some (false, met) => fsckCyclesWithin depth dirs (acc.1, met)

end TypeGraph

end SotFs
