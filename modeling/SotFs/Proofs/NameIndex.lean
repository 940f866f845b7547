/-
Module: SotFs.Proofs.NameIndex
Layer: Proofs
Purpose: The name index is a faithful copy of the `contains` edges: it is the relation they define, it is
  what a rebuild from the entry sets would build, and lookup through it finds what the linear scan finds.
Trusted boundary: none
Main exports: TypeGraph.NameIndexExact, dirNameIdx_exact
-/
import SotFs.Proofs.DirectoryTree

namespace SotFs

open Std (ExtTreeMap ExtTreeSet)
open Foundation

/-- The name index is the relation of directories, names and live `contains` edges, is what a rebuild would
    build, and agrees with the linear scan. -/
structure TypeGraph.NameIndexExact (g : TypeGraph) : Prop where
  relation : ∀ {d n e}, g.dirNameIdx[(d, n)]? = some e ↔
    ∃ id t, g.edges.get e = some (.contains id d t n)
  rebuilt : g.dirNameIdx = g.rebuiltNameIdx
  lookup : ∀ d n, g.lookupName d n = g.scanName d n

section NameIndex

variable {g : TypeGraph}

/-- The pairs that a rebuild inserts are the entries. -/
theorem Inv.mem_rebuilt (h : Inv g) {k : DirId × String} {e : EdgeId} :
    (k, e) ∈ (g.dirContains.toList.flatMap fun p =>
        (g.dirEntries p.1).map fun entry => ((p.1, entry.2.2), entry.1)) ↔
      ∃ w, g.entries e = some w ∧ (w.1, w.2.2) = k := by
  rw [List.mem_flatMap]
  constructor
  · rintro ⟨⟨d, es⟩, _, hmem⟩
    obtain ⟨⟨x, t, n⟩, hx, heq⟩ := List.mem_map.mp hmem
    cases heq
    exact ⟨(d, t, n), h.mem_dirEntries.mp hx, rfl⟩
  · rintro ⟨⟨d, t, n⟩, he, rfl⟩
    obtain ⟨es, hes⟩ := ExtTreeMap.mem_iff_isSome_getElem?.mp ((h.dirKeys d).mpr (h.shape.src_live he))
      |> Option.isSome_iff_exists.mp
    refine ⟨(d, es), ExtTreeMap.mem_toList_iff_getElem?_eq_some.mpr hes, List.mem_map.mpr ?_⟩
    exact ⟨(e, t, n), h.mem_dirEntries.mpr he, rfl⟩

/-- A rebuild builds an index of the entries. -/
theorem Inv.rebuilt_index (h : Inv g) :
    UniqueIndex g.rebuiltNameIdx g.entries (fun w => (w.1, w.2.2)) := by
  refine UniqueIndex.of_list (fun k e => h.mem_rebuilt) ?_
  rintro e e' ⟨d, t, n⟩ ⟨d', t', n'⟩ he he' hkey
  cases hkey
  exact h.shape.names he he'

/-- The linear scan finds what lookup finds. -/
theorem Inv.scanName_eq (h : Inv g) (d : DirId) (n : String) : g.scanName d n = g.lookupName d n := by
  refine Option.ext ?_
  intro v
  rw [h.lookupName_iff, TypeGraph.scanName, Option.bind_eq_some_iff]
  constructor
  · rintro ⟨⟨e, t, m⟩, hfind, hv⟩
    obtain ⟨_, he⟩ := h.find_name.mp hfind
    rw [h.getEdge_of_entry he] at hv
    exact ⟨e, t, (Option.some.inj hv).symm, he⟩
  · rintro ⟨e, t, rfl, he⟩
    exact ⟨(e, t, n), h.find_name.mpr ⟨rfl, he⟩, h.getEdge_of_entry he⟩

/-- A graph that satisfies the invariant has an exact name index. -/
theorem Inv.nameIndexExact (h : Inv g) : g.NameIndexExact where
  relation := by
    intro d n e
    rw [h.index.names (d, n) e]
    constructor
    · rintro ⟨⟨d', t, n'⟩, he, hkey⟩
      cases hkey
      exact ⟨e, t, h.edges_get_iff.mpr he⟩
    · rintro ⟨id, t, he⟩
      exact ⟨(d, t, n), g.entries_of_get he, rfl⟩
  rebuilt := h.index.names.ext h.rebuilt_index
  lookup d n := (h.scanName_eq d n).symm

end NameIndex

/-- The name index of a reachable graph is exact, for every directory id and every string. -/
theorem dirNameIdx_exact {g : TypeGraph} (hg : Reachable g) : g.NameIndexExact := hg.inv.nameIndexExact

/-- The index after a rename that replaces a file and the removal of a directory. -/
theorem dirNameIdx_exact_replaced :
    ((TypeGraph.new 0).calls (fun _ => 0)
      [.createFile 1 "a" 0 0 .fileDefault, .createFile 1 "b" 0 0 .fileDefault,
        .mkdir 1 "c" 0 0 .dirDefault, .rename 1 "a" 1 "b", .rmdir 1 "c"]).NameIndexExact :=
  dirNameIdx_exact (Run.calls _ (.new 0) (by decide))

end SotFs
