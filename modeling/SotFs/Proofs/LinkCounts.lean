/-
Module: SotFs.Proofs.LinkCounts
Layer: Proofs
Purpose: Link counts, names, self-references and block refcounts, counted on the edges that the pool holds.
  Under the invariant they are all right exactly when every name leads to its inode by the inode's own id:
  `link` takes any id whose low 32 bits address the inode, enters the name under that id, and the inode's
  own incoming set never learns of it. Along the runs without such a call the counts are right throughout.
Trusted boundary: none
Main exports: TypeGraph.CountsOk, Inv.countsOk_iff, Op.LinksAlias, counts_hold
-/
import SotFs.Proofs.EditFrames
import SotFs.Proofs.NameIndex

namespace SotFs

open Std (ExtTreeMap ExtTreeSet)
open Foundation

/-! ### Counting edges -/

namespace TypeGraph

/-- The number of `contains` edges into an inode whose names satisfy `p`. -/
def incoming (g : TypeGraph) (t : InodeId) (p : String → Bool) : Nat :=
  (g.edges.slotsWhere fun
    | .contains _ _ tgt name => tgt = t && p name
    | _ => false).card

/-- The number of `pointsTo` edges into a block. -/
def references (g : TypeGraph) (b : BlockId) : Nat :=
  (g.edges.slotsWhere fun
    | .pointsTo _ _ tgt _ => tgt = b
    | _ => false).card

/-- The five counting conditions. -/
structure CountsOk (g : TypeGraph) : Prop where
  linkCount : ∀ {s i}, g.inodes.get s = some i → i.linkCount = g.incoming i.id (· ≠ "..")
  uniqueNames : ∀ {e e' id id' d t t' n}, g.edges.get e = some (.contains id d t n) →
    g.edges.get e' = some (.contains id' d t' n) → e = e'
  selfRef : ∀ {d dir}, g.dirs.get d = some dir →
    ∃ e id, g.edges.get e = some (.contains id d dir.inodeId ".")
  oneName : ∀ {s i}, g.inodes.get s = some i → i.vtype = .directory →
    g.incoming i.id (fun n => n ≠ "." ∧ n ≠ "..") ≤ 1
  refcount : ∀ {s b}, g.blocks.get s = some b → b.refcount = g.references b.id

/-- Every name leads to its inode by the inode's own id. -/
def OwnTargets (g : TypeGraph) : Prop := ∀ {e d t n}, g.entries e = some (d, t, n) → idToArena t = t

end TypeGraph

section Counting

variable {g : TypeGraph}

/-- The slots counted as incoming are entries. -/
theorem TypeGraph.mem_incoming {t : InodeId} {p : String → Bool} {e : EdgeId} :
    (e ∈ g.edges.slotsWhere fun
      | .contains _ _ tgt name => tgt = t && p name
      | _ => false) ↔ ∃ d n, g.entries e = some (d, t, n) ∧ p n = true := by
  rw [Arena.mem_slotsWhere]
  constructor
  · rintro ⟨v, hv, hp⟩
    cases v with
    | contains id d tgt n =>
        rw [Bool.and_eq_true, decide_eq_true_eq] at hp
        obtain ⟨rfl, hn⟩ := hp
        exact ⟨d, n, Arena.view_eq_some.mpr ⟨_, hv, rfl⟩, hn⟩
    | _ => cases hp
  · rintro ⟨d, n, he, hn⟩
    obtain ⟨v, hv, hentry⟩ := Arena.view_eq_some.mp he
    cases v with
    | contains id d' tgt n' =>
        cases hentry
        exact ⟨_, hv, by simpa using hn⟩
    | _ => cases hentry

/-- The incoming set of an inode lists what is counted as incoming. -/
theorem Inv.incoming_eq (h : Inv g) (t : InodeId) (p : String → Bool) :
    g.incoming t p = ((g.incomingNames t).filter p).length := by
  have hnodup := SetIndex.nodup_toList (SetIndex.members g.inodeIncomingContains t)
  rw [TypeGraph.incomingNames, List.filter_filterMap, List.length_filterMap_eq_countP,
    List.countP_eq_length_filter, ← List.toFinset_card_of_nodup (hnodup.filter _), TypeGraph.incoming]
  congr 1
  ext e
  rw [TypeGraph.mem_incoming, List.mem_toFinset, List.mem_filter, ExtTreeSet.mem_toList,
    h.index.incoming t e]
  constructor
  · rintro ⟨d, n, he, hn⟩
    refine ⟨⟨(d, t, n), he, rfl⟩, ?_⟩
    simp [h.getEdge_of_entry he, hn]
  · rintro ⟨⟨⟨d, t', n⟩, he, rfl⟩, hp⟩
    refine ⟨d, n, he, ?_⟩
    simpa [h.getEdge_of_entry he] using hp

end Counting

/-! ### When the counts are right -/

section Counts

variable {g : TypeGraph}

/-- A ".." leads to its inode by the inode's own id. -/
theorem Inv.own_dotdot (h : Inv g) {e d t} (he : g.entries e = some (d, t, "..")) : idToArena t = t := by
  obtain ⟨k, hk, hown⟩ := h.shape.tgt_live he
  have hkind := h.shape.dotdot_kind he
  rw [hk] at hkind
  exact hown (Option.some.inj hkind)

/-- What is counted as incoming counts as a link. -/
theorem Inv.incoming_subset (h : Inv g) {s : Nat} {i : Inode} (hs : g.inodes.data s = some i) :
    (g.edges.slotsWhere fun
      | .contains _ _ tgt name => tgt = i.id && name ≠ ".."
      | _ => false) ⊆ linksTo g.entries s := by
  intro e he
  obtain ⟨d, n, hentry, hn⟩ := TypeGraph.mem_incoming.mp he
  have hid : i.id = s := h.inodeIds.id_eq hs
  have hslot : idToArena s = s := h.inodeIds.slot hs
  refine mem_linksTo.mpr ⟨h.entry_lt hentry, _, hentry, ?_, by simpa using hn⟩
  change idToArena i.id = s
  rw [hid, hslot]

/-- With own targets, the links to an inode are what is counted as incoming. -/
theorem Inv.linkCount_eq_incoming (h : Inv g) (hown : g.OwnTargets) {s : Nat} {i : Inode}
    (hs : g.inodes.data s = some i) : i.linkCount = g.incoming i.id (· ≠ "..") := by
  rw [h.links hs, TypeGraph.incoming]
  refine congrArg Finset.card (Finset.Subset.antisymm ?_ (h.incoming_subset hs))
  intro e he
  obtain ⟨_, ⟨d, t, n⟩, hentry, hslot, hn⟩ := mem_linksTo.mp he
  have hid : i.id = s := h.inodeIds.id_eq hs
  have ht : t = i.id := by rw [hid, ← hslot, hown hentry]
  subst ht
  exact TypeGraph.mem_incoming.mpr ⟨d, n, hentry, by simpa using hn⟩

/-- A name that leads to its inode by another id is missing from the count. -/
theorem Inv.own_of_linkCount (h : Inv g)
    (hcount : ∀ {s i}, g.inodes.data s = some i → i.linkCount = g.incoming i.id (· ≠ "..")) :
    g.OwnTargets := by
  intro e d t n he
  by_cases hn : n = ".."
  · subst hn
    exact h.own_dotdot he
  · obtain ⟨k, hk, _⟩ := h.shape.tgt_live he
    obtain ⟨i, hi, _⟩ := Arena.view_eq_some.mp hk
    have hcard := hcount hi
    rw [h.links hi, TypeGraph.incoming] at hcard
    have hsame := Finset.eq_of_subset_of_card_le (h.incoming_subset hi) (le_of_eq hcard)
    have hmem : e ∈ linksTo g.entries (idToArena t) :=
      mem_linksTo.mpr ⟨h.entry_lt he, _, he, rfl, hn⟩
    rw [← hsame] at hmem
    obtain ⟨d', n', he', _⟩ := TypeGraph.mem_incoming.mp hmem
    rw [he] at he'
    cases he'
    exact (h.inodeIds.id_eq hi).symm

/-- A directory inode has one user name at most. -/
theorem Inv.incoming_user_le (h : Inv g) {s : Nat} {i : Inode} (hs : g.inodes.data s = some i)
    (hkind : i.vtype = .directory) : g.incoming i.id (fun n => n ≠ "." ∧ n ≠ "..") ≤ 1 := by
  have hid : i.id = s := h.inodeIds.id_eq hs
  have hdir : g.shape.kind i.id = some .directory := by
    rw [hid]
    exact Arena.view_eq_some.mpr ⟨i, hs, by rw [hkind]⟩
  obtain ⟨d, hd⟩ := h.shape.kind_dir hdir
  refine Finset.card_le_one.mpr ?_
  intro x hx y hy
  obtain ⟨p, n, hx, hn⟩ := TypeGraph.mem_incoming.mp hx
  obtain ⟨q, m, hy, hm⟩ := TypeGraph.mem_incoming.mp hy
  exact h.shape.entry_unique hd (of_decide_eq_true hn) (of_decide_eq_true hm) hx hy

/-- A block is referenced once and says so. -/
theorem Inv.references_eq (h : Inv g) {s : Nat} {b : Block} (hs : g.blocks.data s = some b) :
    b.refcount = g.references b.id := by
  obtain ⟨hone, e, i, o, he⟩ := h.side.blocks.used hs
  have hid : b.id = s := h.blockIds.id_eq hs
  rw [hone, TypeGraph.references, eq_comm, Finset.card_eq_one]
  refine ⟨e, ?_⟩
  ext x
  rw [Arena.mem_slotsWhere, Finset.mem_singleton]
  constructor
  · rintro ⟨v, hv, hp⟩
    cases v with
    | pointsTo id src tgt off =>
        rw [decide_eq_true_eq] at hp
        subst hp
        have hx : g.edges.view Edge.pointer x = some (src, b.id, off) :=
          Arena.view_eq_some.mpr ⟨_, hv, rfl⟩
        rw [hid] at hx
        exact h.side.blocks.unique hx he
    | _ => cases hp
  · rintro rfl
    obtain ⟨v, hv, hpointer⟩ := Arena.view_eq_some.mp he
    refine ⟨v, hv, ?_⟩
    cases v with
    | pointsTo id src tgt off =>
        cases hpointer
        exact decide_eq_true hid.symm
    | _ => cases hpointer

/-- Under the invariant the counts are right exactly when every name leads to its inode by its own id. -/
theorem Inv.countsOk_iff (h : Inv g) : g.CountsOk ↔ g.OwnTargets := by
  constructor
  · intro hcounts
    refine h.own_of_linkCount ?_
    intro s i hs
    exact hcounts.linkCount (by rw [Arena.get_eq_data, hs])
  · intro hown
    refine
      { linkCount := ?_
        uniqueNames := ?_
        selfRef := ?_
        oneName := ?_
        refcount := ?_ }
    · intro s i hs
      rw [Arena.get_eq_data] at hs
      exact h.linkCount_eq_incoming hown hs
    · intro e e' id id' d t t' n he he'
      exact h.shape.names (g.entries_of_get he) (g.entries_of_get he')
    · intro d dir hdir
      obtain ⟨e, he⟩ := h.shape.dot (h.dirs_get_iff.mp hdir).1
      exact ⟨e, e, h.edges_get_iff.mpr he⟩
    · intro s i hs hkind
      rw [Arena.get_eq_data] at hs
      exact h.incoming_user_le hs hkind
    · intro s b hs
      rw [Arena.get_eq_data] at hs
      exact h.references_eq hs

/-- The root's "." leads to the root inode by its own id. -/
theorem ownTargets_new (now : Timestamp) : (TypeGraph.new now).OwnTargets := by
  intro e d t n he
  rw [new_entries, Function.update_apply] at he
  split at he
  · cases he
    decide
  · cases he

/-- An edit keeps own targets, if the inode it names once more is named by its own id. -/
theorem Edit.ownTargets {free : TypeGraph → InodeId → Prop} {g' : TypeGraph} (h : Inv g)
    (hown : g.OwnTargets) (hedit : Edit (fun g t => ∀ i, g.getInode t = some i → i.id = t) free g g') :
    g'.OwnTargets := by
  intro e d t n he
  rcases hedit.targets h he with ⟨e', d', n', he'⟩ | rfl | ⟨c, hc⟩ | ⟨hlink, i, hi⟩
  · exact hown he'
  · exact h.inodeIds.slot_next
  · exact h.shape.dir_slot hc
  · have hid := hlink i hi
    rw [TypeGraph.getInode, Arena.get_eq_data] at hi
    exact h.inodeIds.eq_of_id hi hid

end Counts

/-! ### Runs -/

/-- The call names an inode once more by an id other than the inode's own. -/
def Op.LinksAlias (g : TypeGraph) (op : Op) : Prop :=
  ∃ t i, op.Links g t ∧ g.getInode t = some i ∧ i.id ≠ t

/-- A call that links no inode by another id links one by its own. -/
theorem Op.own_of_not_linksAlias {g : TypeGraph} {op : Op} (halias : ¬ op.LinksAlias g) (t : InodeId)
    (hlinks : op.Links g t) : ∀ i, g.getInode t = some i → i.id = t := by
  intro i hi
  by_contra hne
  exact halias ⟨t, i, hlinks, hi, hne⟩

/-- Own targets hold along every run without a link by another id. -/
theorem Run.ownTargets {allowed : TypeGraph → Op → TypeGraph → Prop}
    (hallowed : ∀ g op g', allowed g op g' → InCapacityCall g op g' ∧ ¬ op.LinksAlias g)
    {g : TypeGraph} (hrun : Run allowed g) : Inv g ∧ g.OwnTargets := by
  refine hrun.keep (fun g t => ∀ i, g.getInode t = some i → i.id = t) (fun _ _ => True) ownTargets_new
    (fun h hown hedit => hedit.ownTargets h hown) ?_
  intro g op g' hcall
  obtain ⟨hcapacity, halias⟩ := hallowed g op g' hcall
  exact ⟨hcapacity, Op.own_of_not_linksAlias halias, fun _ _ => trivial⟩

/-- Along every run without a link by another id the counts are right. -/
theorem counts_hold {g : TypeGraph}
    (hrun : Run (fun g op g' => InCapacityCall g op g' ∧ ¬ op.LinksAlias g) g) : g.CountsOk := by
  obtain ⟨hinv, hown⟩ := hrun.ownTargets fun _ _ _ hcall => hcall
  exact hinv.countsOk_iff.mpr hown

/-- A file with a second name, made under its own id, that loses its first. -/
theorem counts_hold_linked :
    ((TypeGraph.new 0).calls (fun _ => 0)
      [.createFile 1 "a" 0 0 .fileDefault, .link 1 "b" 2, .unlink 1 "a"]).CountsOk := by
  refine counts_hold (Run.calls _ (.new 0) ⟨⟨by decide, ?_⟩, ⟨by decide, ?_⟩, ⟨by decide, ?_⟩, trivial⟩)
  · rintro ⟨t, i, hlinks, _⟩
    exact hlinks
  · rintro ⟨t, i, ⟨rfl, _⟩, hi, hne⟩
    have hid : (((TypeGraph.new 0).calls (fun _ => 0)
        [.createFile 1 "a" 0 0 .fileDefault]).getInode 2).map Inode.id = some 2 := by decide
    exact hne (Option.some.inj ((congrArg (Option.map Inode.id) hi).symm.trans hid))
  · rintro ⟨t, i, hlinks, _⟩
    exact hlinks

/-- A link to inode 2 by the id 2 + 2^32: the inode says two links, one edge carries its id. -/
theorem counts_broken_alias :
    let g := (TypeGraph.new 0).calls (fun _ => 0)
      [.createFile 1 "a" 0 0 .fileDefault, .link 1 "b" (2 + 2 ^ 32)]
    Reachable g ∧ ¬ g.CountsOk := by
  refine ⟨Run.calls _ (.new 0) (by decide), ?_⟩
  intro hcounts
  have hbroken : (((TypeGraph.new 0).calls (fun _ => 0)
      [.createFile 1 "a" 0 0 .fileDefault, .link 1 "b" (2 + 2 ^ 32)]).inodes.get 2).any (fun i =>
        i.linkCount ≠ ((TypeGraph.new 0).calls (fun _ => 0)
          [.createFile 1 "a" 0 0 .fileDefault, .link 1 "b" (2 + 2 ^ 32)]).incoming i.id (· ≠ "..")) := by
    decide
  obtain ⟨i, hi, hne⟩ := (Option.any_eq_true _ _).mp hbroken
  exact of_decide_eq_true hne (hcounts.linkCount hi)

end SotFs
