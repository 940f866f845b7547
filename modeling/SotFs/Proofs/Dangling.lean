/-
Module: SotFs.Proofs.Dangling
Layer: Proofs
Purpose: Dangling edges. A name never dangles: an inode is freed with its last one. Block, attribute and
  grant edges do: unlink collects the blocks that point from the freed inode by its own id, nothing collects
  its attributes and grants, and rmdir collects neither. The verifier, which goes by the tags, also reports
  a block edge whose block id is no live inode's. Along the runs that free no inode with such edges left
  over and keep every block id mirrored, no edge of any kind dangles and the verifier reports none.
Trusted boundary: none
Main exports: Edge.leadsTo, TypeGraph.NoDangling, Inv.checkNoDanglingEdges_iff, Op.Strands, no_dangling
-/
import SotFs.Proofs.BlockEdges
import SotFs.Proofs.LinkCounts

namespace SotFs

open Std (ExtTreeMap ExtTreeSet)
open Foundation

/-- The node that an edge leads to: for a block edge the block itself, where `tgtNode` has an inode. -/
def Edge.leadsTo : Edge → NodeId
  | .pointsTo _ _ tgt _ => .block tgt
  | edge => edge.tgtNode

/-- Both endpoints of every live edge are live nodes. -/
def TypeGraph.NoDangling (g : TypeGraph) : Prop :=
  ∀ {e v}, g.edges.get e = some v → g.containsNode v.srcNode = true ∧ g.containsNode v.leadsTo = true

/-- Every inode with a side edge is live. -/
def TypeGraph.SideLive (g : TypeGraph) : Prop :=
  ∀ {e t}, g.edges.view Edge.sideInode e = some t → ∃ k, g.kinds (idToArena t) = some k

/-- Freeing the inode at `t` takes every side edge of its slot along: what is left there points to blocks,
    from this very id, and the inode is no directory. -/
def TypeGraph.FreesClean (g : TypeGraph) (t : InodeId) : Prop :=
  ∀ e v t', g.edges.get e = some v → v.sideInode = some t' → idToArena t' = idToArena t →
    (∃ b o, v = .pointsTo e t b o) ∧ ∀ i, g.getInode t = some i → i.vtype ≠ .directory

section Dangling

variable {g : TypeGraph}

/-- The other end of a side edge is always live, and so are both ends of a name. -/
theorem Inv.noDangling (h : Inv g) (hlive : g.SideLive) : g.NoDangling := by
  intro e v hv
  rw [Arena.get_eq_data] at hv
  have hside : ∀ {t}, v.sideInode = some t → g.containsInode t = true := fun ht =>
    TypeGraph.containsInode_iff.mpr (hlive (Arena.view_eq_some.mpr ⟨v, hv, ht⟩))
  have hother : v.other = none := by
    have hnone := h.side.others e
    rwa [Arena.view, hv, Option.bind_some] at hnone
  cases v with
  | contains id d t n =>
      have he : g.entries e = some (d, t, n) := Arena.view_eq_some.mpr ⟨_, hv, rfl⟩
      obtain ⟨di, hdi⟩ := h.shape.src_live he
      obtain ⟨k, hk, _⟩ := h.shape.tgt_live he
      exact ⟨h.containsDir_eq hdi, TypeGraph.containsInode_iff.mpr ⟨k, hk⟩⟩
  | grants id c t r =>
      obtain ⟨cap, hcap⟩ := h.side.grants.live (Arena.view_eq_some.mpr ⟨_, hv, rfl⟩)
      refine ⟨?_, hside rfl⟩
      change g.caps.contains (idToArena c) = true
      rw [Arena.contains_eq_isSome, h.capIds.slot hcap, hcap, Option.isSome_some]
  | pointsTo id t b o =>
      obtain ⟨blk, hblk⟩ := h.side.blocks.live (Arena.view_eq_some.mpr ⟨_, hv, rfl⟩)
      refine ⟨hside rfl, ?_⟩
      change g.blocks.contains (idToArena b) = true
      rw [Arena.contains_eq_isSome, h.blockIds.slot hblk, hblk, Option.isSome_some]
  | hasXattr id t a =>
      refine ⟨hside rfl, ?_⟩
      have ha : a ∈ g.xattrs := h.side.xattrs.live.mpr ⟨e, t, Arena.view_eq_some.mpr ⟨_, hv, rfl⟩⟩
      exact ExtTreeMap.mem_iff_contains.mp ha
  | delegates | derivedFrom | supersedes => cases hother

/-- An edit keeps the inodes of side edges live, if it frees none with side edges left over. -/
theorem Edit.sideLive {link : TypeGraph → InodeId → Prop} {g' : TypeGraph} (h : Inv g)
    (hlive : g.SideLive) (hedit : Edit link TypeGraph.FreesClean g g') : g'.SideLive := by
  intro e t he
  rcases hedit.sideEdges h he with hold | hnew
  · obtain ⟨k, hk⟩ := hlive hold
    rcases hedit.kinds h hk with hkept | ⟨t', hslot, hclean, hcollected⟩
    · exact ⟨k, hkept⟩
    · obtain ⟨v, hv, hside⟩ := Arena.view_eq_some.mp hold
      have hget : g.edges.get e = some v := by rw [Arena.get_eq_data, hv]
      obtain ⟨⟨b, o, rfl⟩, hfile⟩ := hclean e v t hget hside hslot.symm
      obtain ⟨i, hi, hkind⟩ := Arena.view_eq_some.mp hk
      rw [← hslot] at hi
      have hne : k ≠ .directory := by
        rw [← Option.some.inj hkind]
        exact hfile i (by rw [TypeGraph.getInode, Arena.get_eq_data, hi])
      -- the blocks of the freed file went with it
      rw [Arena.view, hcollected hne e b o hv] at he
      cases he
  · rw [TypeGraph.containsInode, Arena.contains_eq_isSome, Option.isSome_iff_exists] at hnew
    obtain ⟨i, hi⟩ := hnew
    exact ⟨i.vtype, Arena.view_eq_some.mpr ⟨i, hi, rfl⟩⟩

/-- A new graph has no side edges. -/
theorem sideLive_new (now : Timestamp) : (TypeGraph.new now).SideLive := by
  intro e t he
  rw [new_view now rfl] at he
  cases he

/-- The check of the verifier passes exactly when the tagged endpoints of every edge are live. -/
theorem TypeGraph.checkNoDanglingEdges_iff : g.checkNoDanglingEdges = .ok () ↔ ∀ {e v},
    g.edges.get e = some v → g.containsNode v.srcNode = true ∧ g.containsNode v.tgtNode = true := by
  unfold TypeGraph.checkNoDanglingEdges
  rw [forEach_ok_iff]
  constructor
  · intro hall e v hv
    rw [Arena.get_eq_data] at hv
    simpa using hall (e, v) (Arena.mem_iter.mpr hv)
  · rintro hno ⟨e, v⟩ hmem
    have hv : g.edges.get e = some v := by rw [Arena.get_eq_data, Arena.mem_iter.mp hmem]
    simp [hno hv]

/-- Under the invariant it passes exactly when no edge dangles and every block id is an inode's too. -/
theorem Inv.checkNoDanglingEdges_iff (h : Inv g) :
    g.checkNoDanglingEdges = .ok () ↔ g.NoDangling ∧ g.BlocksMirrored := by
  rw [TypeGraph.checkNoDanglingEdges_iff]
  constructor
  · intro hlive
    refine ⟨fun {e v} hv => ⟨(hlive hv).1, ?_⟩, fun {e t b o} he => ?_⟩
    · cases v with
      | pointsTo id t b o =>
          rw [Arena.get_eq_data] at hv
          obtain ⟨blk, hblk⟩ := h.side.blocks.live (Arena.view_eq_some.mpr ⟨_, hv, rfl⟩)
          change g.blocks.contains (idToArena b) = true
          rw [Arena.contains_eq_isSome, h.blockIds.slot hblk, hblk, Option.isSome_some]
      | _ => exact (hlive hv).2
    · have hv := h.pointer_iff.mp he
      exact (hlive (e := e) (by rw [Arena.get_eq_data, hv])).2
  · rintro ⟨hno, hmirrored⟩ e v hv
    refine ⟨(hno hv).1, ?_⟩
    cases v with
    | pointsTo id t b o =>
        rw [Arena.get_eq_data] at hv
        exact hmirrored (Arena.view_eq_some.mpr ⟨_, hv, rfl⟩)
    | _ => exact (hno hv).2

/-- A file whose blocks are all that the pool holds besides names is freed clean. -/
theorem TypeGraph.freesClean_of_iter {t : InodeId}
    (hedges : ∀ p ∈ g.edges.iter, p.2.sideInode = none ∨ ∃ b o, p.2 = .pointsTo p.1 t b o)
    (hkind : ∀ i ∈ g.getInode t, i.vtype ≠ .directory) : g.FreesClean t := by
  intro e v t' hv hside _
  rw [Arena.get_eq_data] at hv
  refine ⟨?_, hkind⟩
  rcases hedges (e, v) (Arena.mem_iter.mpr hv) with hnone | hpoints
  · rw [show v.sideInode = none from hnone] at hside
    cases hside
  · exact hpoints

end Dangling

/-! ### Runs -/

/-- The call frees an inode and leaves one of its side edges behind. -/
def Op.Strands (g : TypeGraph) (op : Op) : Prop := ∃ t, op.Frees g t ∧ ¬ g.FreesClean t

/-- Along every run that leaves no block id without its inode, every block id has one. -/
theorem Run.blocksMirrored {g : TypeGraph}
    (hrun : Run (fun g op g' => InCapacityCall g op g' ∧ ¬ op.Unmirrors g) g) : g.BlocksMirrored := by
  induction hrun with
  | new now => exact blocksMirrored_new now
  | call now op hbefore hallowed ih =>
      have hinv : Inv _ := Reachable.inv (hbefore.mono fun _ _ _ hcall => hcall.1)
      exact fun {_ _ _ _} => op.blocksMirrored hinv ih hallowed.1 hallowed.2
  | setCapCtx _ _ ih => exact ih
  | enableProvLog _ ih => exact ih
  | disableProvLog _ ih => exact ih

/-- Along every run that strands no edge and unmirrors no block, no edge dangles and the verifier reports
    none. -/
theorem no_dangling {g : TypeGraph}
    (hrun : Run (fun g op g' => InCapacityCall g op g' ∧ ¬ op.Strands g ∧ ¬ op.Unmirrors g) g) :
    g.NoDangling ∧ g.checkNoDanglingEdges = .ok () := by
  obtain ⟨hinv, hlive⟩ : Inv g ∧ g.SideLive := by
    refine hrun.keep (fun _ _ => True) _ sideLive_new
      (fun h hlive hedit => hedit.sideLive h hlive) ?_
    rintro g op g' ⟨hcapacity, hstrands, _⟩
    refine ⟨hcapacity, fun _ _ => trivial, ?_⟩
    intro t hfrees
    by_contra hclean
    exact hstrands ⟨t, hfrees, hclean⟩
  have hmirrored : g.BlocksMirrored := Run.blocksMirrored (hrun.mono fun _ _ _ hcall => ⟨hcall.1, hcall.2.2⟩)
  exact ⟨hinv.noDangling hlive, hinv.checkNoDanglingEdges_iff.mpr ⟨hinv.noDangling hlive, hmirrored⟩⟩

/-- A file unlinked with its block, whose id is the root's. -/
theorem no_dangling_unlinked :
    let g := (TypeGraph.new 0).calls (fun _ => 0)
      [.createFile 1 "a" 0 0 .fileDefault, .writeBlock 2 0 0 8, .unlink 1 "a"]
    g.NoDangling ∧ g.checkNoDanglingEdges = .ok () := by
  refine no_dangling (Run.calls _ (.new 0)
    ⟨⟨by decide, ?_, ?_⟩, ⟨by decide, ?_, ?_⟩, ⟨by decide, ?_, ?_⟩, trivial⟩)
  · rintro ⟨t, hfrees, _⟩
    exact hfrees
  · rintro (⟨hattaches, _⟩ | ⟨t, hfrees, _⟩)
    · exact hattaches
    · exact hfrees
  · rintro ⟨t, hfrees, _⟩
    exact hfrees
  · rintro (⟨_, hdead⟩ | ⟨t, hfrees, _⟩)
    · exact absurd hdead (by decide)
    · exact hfrees
  · rintro ⟨t, ⟨_, _, hresolve, i, hi, hkind, _⟩, hstrands⟩
    have ht : t = 2 := by
      have hname : ((TypeGraph.new 0).calls (fun _ => 0)
          [.createFile 1 "a" 0 0 .fileDefault, .writeBlock 2 0 0 8]).resolveName 1 "a" = some 2 := by decide
      exact Option.some.inj (hresolve.symm.trans hname)
    subst ht
    have hedges : ∀ p ∈ ((TypeGraph.new 0).calls (fun _ => 0)
        [.createFile 1 "a" 0 0 .fileDefault, .writeBlock 2 0 0 8]).edges.iter,
        p.2.sideInode = none ∨ p.2 = .pointsTo p.1 2 1 0 := by decide
    refine hstrands (TypeGraph.freesClean_of_iter (fun p hp => ?_) ?_)
    · exact (hedges p hp).imp_right fun hpoints => ⟨1, 0, hpoints⟩
    · intro j hj
      have hij := hi.symm.trans hj
      cases hij
      exact hkind
  · rintro (⟨hattaches, _⟩ | ⟨t, ⟨_, _, hresolve, _⟩, hmirrors⟩)
    · exact hattaches
    · have ht : t = 2 := by
        have hname : ((TypeGraph.new 0).calls (fun _ => 0)
            [.createFile 1 "a" 0 0 .fileDefault, .writeBlock 2 0 0 8]).resolveName 1 "a" = some 2 := by decide
        exact Option.some.inj (hresolve.symm.trans hname)
      subst ht
      have hedges : ∀ p ∈ ((TypeGraph.new 0).calls (fun _ => 0)
          [.createFile 1 "a" 0 0 .fileDefault, .writeBlock 2 0 0 8]).edges.iter,
          ∀ w ∈ p.2.pointer, w.2.1 = 1 := by decide
      refine hmirrors fun x t' b o hx hslot => ?_
      obtain ⟨v, hv, hpointer⟩ := Arena.view_eq_some.mp hx
      have hb : b = 1 := hedges (x, v) (Arena.mem_iter.mpr hv) (t', b, o) hpointer
      subst hb
      exact absurd hslot (by decide)

/-- A file with an attribute is unlinked: the attribute's edge is left without its source. And with two
    blocks on the root nothing dangles, but the verifier looks for an inode 2. -/
theorem dangling_after_unlink :
    let g := (TypeGraph.new 0).calls (fun _ => 0)
      [.createFile 1 "a" 0 0 .fileDefault, .setxattr 2 .user "k" [1], .unlink 1 "a"]
    let g' := (TypeGraph.new 0).calls (fun _ => 0) [.writeBlock 1 0 0 8, .writeBlock 1 8 8 8]
    (Reachable g ∧ ¬ g.NoDangling ∧ g.checkNoDanglingEdges = .error (.danglingEdge 3 false true)) ∧
      Reachable g' ∧ g'.NoDangling ∧ g'.checkNoDanglingEdges = .error (.danglingEdge 3 true false) := by
  refine ⟨⟨Run.calls _ (.new 0) (by decide), ?_, by decide⟩, Run.calls _ (.new 0) (by decide), ?_, by decide⟩
  · intro hno
    have hedge : ((TypeGraph.new 0).calls (fun _ => 0) [.createFile 1 "a" 0 0 .fileDefault,
        .setxattr 2 .user "k" [1], .unlink 1 "a"]).edges.get 3 = some (.hasXattr 3 2 1) := by decide
    exact absurd (hno hedge).1 (by decide)
  · intro e v hv
    rw [Arena.get_eq_data] at hv
    have hall : ∀ p ∈ ((TypeGraph.new 0).calls (fun _ => 0)
        [.writeBlock 1 0 0 8, .writeBlock 1 8 8 8]).edges.iter,
        ((TypeGraph.new 0).calls (fun _ => 0)
          [.writeBlock 1 0 0 8, .writeBlock 1 8 8 8]).containsNode p.2.srcNode = true ∧
        ((TypeGraph.new 0).calls (fun _ => 0)
          [.writeBlock 1 0 0 8, .writeBlock 1 8 8 8]).containsNode p.2.leadsTo = true := by decide
    exact hall (e, v) (Arena.mem_iter.mpr hv)

end SotFs
