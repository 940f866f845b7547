/-
Module: SotFs.Proofs.Reload
Layer: Proofs
Purpose: A saved and loaded graph cannot be told from the graph that was saved. The arenas come back with the
  same values in the same slots, the name index with the entries the invariant says it has, everything else
  as it was written; the graphs are alike, and graphs that are alike are alike to every client. Besides, what
  is written once is written again: a graph and its reload have one serialized form.
Trusted boundary: none
Main exports: Arena.deserialize_serialize, Inv.reload_alike, TypeGraph.reload_serialize,
  load_save_observablyEqual
-/
import SotFs.Core.Storage
import SotFs.Proofs.Agreement
import SotFs.Proofs.NameIndex

namespace SotFs

open Std (ExtTreeMap ExtTreeSet)
open Foundation

/-! ### Arenas -/

namespace Arena

variable {T : Type} {C : Nat}

/-- Pairs with distinct slots that are in range and vacant all find their place. -/
theorem data_foldl_insertAt (pairs : List (Nat × T)) :
    ∀ a : Arena T C, (pairs.map Prod.fst).Nodup → (∀ p ∈ pairs, p.1 < C ∧ a.data p.1 = none) →
      (∀ p ∈ pairs, (pairs.foldl (fun a p => (a.insertAt p.1 p.2).2) a).data p.1 = some p.2) ∧
      ∀ s, (∀ p ∈ pairs, p.1 ≠ s) →
        (pairs.foldl (fun a p => (a.insertAt p.1 p.2).2) a).data s = a.data s := by
  induction pairs with
  | nil =>
      intro a _ _
      exact ⟨fun p hp => absurd hp List.not_mem_nil, fun s _ => rfl⟩
  | cons q pairs ih =>
      intro a hnodup hroom
      rw [List.map_cons, List.nodup_cons] at hnodup
      obtain ⟨hcap, hvacant⟩ := hroom q List.mem_cons_self
      have hdata := data_insertAt q.2 hcap hvacant
      have hne : ∀ p ∈ pairs, p.1 ≠ q.1 := fun p hp heq =>
        hnodup.1 (List.mem_map.mpr ⟨p, hp, heq⟩)
      obtain ⟨hin, hout⟩ := ih (a.insertAt q.1 q.2).2 hnodup.2 (by
        intro p hp
        obtain ⟨hpcap, hpvacant⟩ := hroom p (List.mem_cons_of_mem _ hp)
        exact ⟨hpcap, by rw [hdata, Function.update_of_ne (hne p hp), hpvacant]⟩)
      constructor
      · intro p hp
        rcases List.mem_cons.mp hp with rfl | hp
        · rw [List.foldl_cons, hout p.1 hne, hdata, Function.update_self]
        · exact hin p hp
      · intro s hs
        have hqs : s ≠ q.1 := (hs q List.mem_cons_self).symm
        rw [List.foldl_cons, hout s fun p hp => hs p (List.mem_cons_of_mem _ hp), hdata,
          Function.update_of_ne hqs]

theorem iter_slots_nodup (a : Arena T C) : (a.iter.map Prod.fst).Nodup := by
  refine a.iter_nodup.map_on ?_
  rintro ⟨s, v⟩ hv ⟨s', v'⟩ hv' hs
  dsimp only at hs
  subst hs
  rw [mem_iter] at hv hv'
  rw [hv] at hv'
  cases hv'
  rfl

/-- The values come back in their slots. -/
theorem deserialize_serialize (a : Arena T C) : (deserialize a.serialize : Arena T C).data = a.data := by
  obtain ⟨hin, hout⟩ := data_foldl_insertAt a.iter (.new : Arena T C) a.iter_slots_nodup (by
    rintro ⟨s, v⟩ hp
    exact ⟨(a.lt_nextBump (mem_iter.mp hp)).trans_le a.nextBump_le, rfl⟩)
  funext s
  cases hd : a.data s with
  | some v => exact hin (s, v) (mem_iter.mpr hd)
  | none =>
      refine hout s ?_
      rintro ⟨s', v⟩ hp rfl
      rw [mem_iter, hd] at hp
      cases hp

/-- A deserialized arena counts its values. -/
theorem deserialize_counted (pairs : List (Nat × T)) : (deserialize pairs : Arena T C).Counted := by
  unfold deserialize
  generalize hfrom : (new : Arena T C) = a
  have ha : a.Counted := hfrom ▸ counted_new
  clear hfrom
  induction pairs generalizing a with
  | nil => exact ha
  | cons p pairs ih => exact ih _ (ha.insertAt p.1 p.2)

theorem stored_reload {a b : Arena T C} (h : Likeness.stored.rel a b) :
    Likeness.stored.rel a (deserialize b.serialize) :=
  ⟨h.1.trans b.deserialize_serialize.symm, h.2.1, deserialize_counted _⟩

end Arena

/-! ### Graphs -/

section Reload

variable {g : TypeGraph}

/-- A graph and its reload have the same serialized form. -/
theorem TypeGraph.reload_serialize (g : TypeGraph) : g.reload.serialize = g.serialize := by
  have hiter : ∀ {T : Type} {C : Nat} (a : Arena T C),
      (Arena.deserialize a.serialize : Arena T C).serialize = a.serialize := fun a =>
    Arena.iter_congr a.deserialize_serialize
  unfold TypeGraph.reload TypeGraph.rebuildDirNameIdx GraphData.deserialize
  unfold TypeGraph.serialize
  simp only [hiter]

/-- The index a reload builds is the one the graph would build. -/
theorem TypeGraph.reload_dirNameIdx (g : TypeGraph) : g.reload.dirNameIdx = g.rebuiltNameIdx := by
  have hedge : g.serialize.deserialize.getEdge = g.getEdge := by
    funext e
    rw [TypeGraph.getEdge, TypeGraph.getEdge, Arena.get_eq_data, Arena.get_eq_data]
    exact congrFun (Arena.deserialize_serialize g.edges) _
  change g.serialize.deserialize.rebuiltNameIdx = _
  unfold TypeGraph.rebuiltNameIdx TypeGraph.dirEntries
  rw [hedge]
  rfl

/-- The index that a graph would build is the one that a graph like it would build. -/
theorem Alike.rebuiltNameIdx {L : Likeness} {g' : TypeGraph} (h : Alike L g g') :
    g.rebuiltNameIdx = g'.rebuiltNameIdx := by
  have hentries : g.dirEntries = g'.dirEntries := funext h.dirEntries
  unfold TypeGraph.rebuiltNameIdx
  rw [h.dirContains, hentries]

/-- A graph that satisfies the invariant is like the reload of a graph like it. -/
theorem Inv.reload_alike {s : TypeGraph} (h : Inv s) (hsame : Alike .stored s g)
    (hctx : s.capCtx = .anonymous) : Alike .stored s g.reload where
  inodes := Arena.stored_reload hsame.inodes
  dirs := Arena.stored_reload hsame.dirs
  caps := Arena.stored_reload hsame.caps
  transactions := Arena.stored_reload hsame.transactions
  versions := Arena.stored_reload hsame.versions
  blocks := Arena.stored_reload hsame.blocks
  edges := Arena.stored_reload hsame.edges
  frame := by
    have hindex : s.dirNameIdx = g.reload.dirNameIdx := by
      rw [g.reload_dirNameIdx, h.nameIndexExact.rebuilt, hsame.rebuiltNameIdx]
    have hreload : g.reload.frame =
        { g.frame with dirNameIdx := g.reload.dirNameIdx, capCtx := .anonymous } := rfl
    rw [hreload, ← hindex, ← hctx, ← hsame.frame]
    rfl

end Reload

/-- What load returns after save is observationally the saved graph: the save succeeds on a device that
    takes the write, load succeeds, and no sequence of operations and queries tells the two apart. -/
theorem load_save_observablyEqual {Bytes Db : Type} {backend : RedbBackend Bytes Db}
    (hbackend : backend.Faithful) {db : Db}
    (hcommits : ∀ bytes, (backend.redb.insertGraph bytes db).1 = .ok ()) {g : TypeGraph}
    (hg : Reachable g) (hctx : g.capCtx = .anonymous) :
    (backend.save g db).1 = .ok () ∧ ∃ g', backend.load (backend.save g db).2 = .ok (some g') ∧
      g'.capCtx = .anonymous ∧ ObservablyEqual g g' := by
  have hsaved : (backend.save g db).1 = .ok () := by
    obtain ⟨bytes, hto, _⟩ := hbackend.codec g.serialize
    rw [RedbBackend.save, hto]
    exact hcommits bytes
  exact ⟨hsaved, g.reload, hbackend.load_save hsaved, rfl,
    (hg.inv.reload_alike (hg.alike .stored) hctx).observablyEqual⟩

/-- A backend that keeps the serialized graph as it is and never fails. -/
def memoryBackend : RedbBackend GraphData (Option GraphData) where
  serde := ⟨.ok, .ok⟩
  redb := ⟨fun data _ => (.ok (), some data), .ok⟩

theorem memoryBackend_faithful : memoryBackend.Faithful where
  codec data := ⟨data, rfl, rfl⟩
  stored _ _ _ := rfl
  atomic _ _ _ h := by cases h

/-- A file and a directory saved and loaded. -/
theorem load_save_observablyEqual_sample :
    ∃ g', memoryBackend.load (memoryBackend.save ((TypeGraph.new 0).calls (fun _ => 0)
        [.createFile 1 "a" 0 0 .fileDefault, .mkdir 1 "b" 0 0 .dirDefault]) none).2 = .ok (some g') ∧
      ObservablyEqual ((TypeGraph.new 0).calls (fun _ => 0)
        [.createFile 1 "a" 0 0 .fileDefault, .mkdir 1 "b" 0 0 .dirDefault]) g' := by
  obtain ⟨_, g', hload, _, hequal⟩ := @load_save_observablyEqual _ _ _ memoryBackend_faithful none
    (fun _ => rfl) ((TypeGraph.new 0).calls (fun _ => 0)
      [.createFile 1 "a" 0 0 .fileDefault, .mkdir 1 "b" 0 0 .dirDefault])
    (Run.calls _ (.new 0) (by decide)) (by decide)
  exact ⟨g', hload, hequal⟩

end SotFs
