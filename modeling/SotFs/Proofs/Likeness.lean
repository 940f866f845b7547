/-
Module: SotFs.Proofs.Likeness
Layer: Proofs
Purpose: When two graphs cannot be told apart. An arena has parts that no read shows (its free list and its
  bump pointer), and no operation reads the provenance log. A likeness is a relation between arenas that
  every arena operation keeps and no read sees; two graphs are alike when their pools are and all their
  other fields but the log are equal. Every read of a graph and every primitive write respects this.
Trusted boundary: none
Main exports: Likeness, Likeness.exact, Likeness.stored, TypeGraph.frame, Alike, Alike.dirEntries,
  Alike.resolveName, Alike.foldl, Alike.settle
-/
import SotFs.Core.Runs
import SotFs.Proofs.OpCases

namespace SotFs

open Std (ExtTreeMap ExtTreeSet)
open Foundation

/-- A relation between arenas that the operations keep and no read can see. -/
structure Likeness where
  rel : ∀ {T : Type} {C : Nat}, Arena T C → Arena T C → Prop
  data : ∀ {T : Type} {C : Nat} {a b : Arena T C}, rel a b → a.data = b.data
  len : ∀ {T : Type} {C : Nat} {a b : Arena T C}, rel a b → a.len = b.len
  new : ∀ {T : Type} {C : Nat}, rel (.new : Arena T C) .new
  insertAt : ∀ {T : Type} {C : Nat} {a b : Arena T C}, rel a b → ∀ s v,
    rel (a.insertAt s v).2 (b.insertAt s v).2
  remove : ∀ {T : Type} {C : Nat} {a b : Arena T C}, rel a b → ∀ s, rel (a.remove s).2 (b.remove s).2
  modify : ∀ {T : Type} {C : Nat} {a b : Arena T C}, rel a b → ∀ s f, rel (a.modify s f) (b.modify s f)

/-- The same arenas. -/
def Likeness.exact : Likeness where
  rel a b := a = b
  data h := congrArg Arena.data h
  len h := congrArg Arena.len h
  new := rfl
  insertAt h s v := congrArg (fun a => (a.insertAt s v).2) h
  remove h s := congrArg (fun a => (a.remove s).2) h
  modify h s f := congrArg (fun a => a.modify s f) h

/-- The occupied slots in slot order are the same: the bump pointers only bound the listing. -/
theorem Arena.iter_congr {T : Type} {C : Nat} {a b : Arena T C} (h : a.data = b.data) :
    a.iter = b.iter := by
  have hlist : ∀ (a : Arena T C) (n : Nat), a.nextBump ≤ n →
      a.iter = (List.range n).filterMap fun s => (a.data s).map fun v => (s, v) := by
    intro a n hn
    induction n, hn using Nat.le_induction with
    | base => rfl
    | succ n hn ih =>
        have hvacant : a.data n = none := by
          cases hd : a.data n with
          | none => rfl
          | some v => exact absurd (a.lt_nextBump hd) (not_lt.mpr hn)
        rw [List.range_succ, List.filterMap_append, ← ih, List.filterMap_cons, hvacant]
        exact (List.append_nil _).symm
  rw [hlist a (max a.nextBump b.nextBump) (le_max_left _ _),
    hlist b (max a.nextBump b.nextBump) (le_max_right _ _), h]

/-- The length counter counts the occupied slots. -/
def Arena.Counted {T : Type} {C : Nat} (a : Arena T C) : Prop := a.len = (a.slotsWhere fun _ => true).card

section Counted

variable {T : Type} {C : Nat} {a : Arena T C}

theorem Arena.mem_occupied {s : Nat} : s ∈ a.slotsWhere (fun _ => true) ↔ (a.data s).isSome := by
  rw [Arena.mem_slotsWhere, Option.isSome_iff_exists]
  constructor
  · rintro ⟨v, hv, _⟩
    exact ⟨v, hv⟩
  · rintro ⟨v, hv⟩
    exact ⟨v, hv, rfl⟩

theorem Arena.counted_new : (Arena.new : Arena T C).Counted := rfl

theorem Arena.Counted.insertAt (h : a.Counted) (s : Nat) (v : T) : (a.insertAt s v).2.Counted := by
  by_cases hcap : s < C
  · cases hd : a.data s with
    | some w =>
        have hrefused : a.insertAt s v = (false, a) := by
          unfold Arena.insertAt
          rw [dif_neg (not_le.mpr hcap)]
          split
          · rfl
          · rename_i hvac
            rw [hd] at hvac
            cases hvac
        rw [hrefused]
        exact h
    | none =>
        have hslots : (a.insertAt s v).2.slotsWhere (fun _ => true) =
            insert s (a.slotsWhere fun _ => true) := by
          ext t
          rw [Arena.mem_occupied, Finset.mem_insert, Arena.mem_occupied, Arena.data_insertAt _ hcap hd]
          by_cases hts : t = s
          · subst hts
            rw [Function.update_self]
            exact iff_of_true rfl (.inl rfl)
          · rw [Function.update_of_ne hts]
            exact (or_iff_right hts).symm
        have hlen : (a.insertAt s v).2.len = a.len + 1 := by
          unfold Arena.insertAt
          rw [dif_neg (not_le.mpr hcap)]
          split
          · rename_i w hw
            rw [hd] at hw
            cases hw
          · rfl
        have hnew : s ∉ a.slotsWhere fun _ => true := by
          rw [Arena.mem_occupied, hd]
          exact Bool.false_ne_true
        rw [Arena.Counted, hlen, hslots, Finset.card_insert_of_notMem hnew, h]
  · rw [Arena.insertAt_of_le (not_lt.mp hcap)]
    exact h

theorem Arena.Counted.remove (h : a.Counted) (s : Nat) : (a.remove s).2.Counted := by
  have hslots : (a.remove s).2.slotsWhere (fun _ => true) = (a.slotsWhere fun _ => true).erase s := by
    ext t
    rw [Arena.mem_occupied, Finset.mem_erase, Arena.mem_occupied, Arena.data_remove]
    by_cases hts : t = s
    · subst hts
      rw [Function.update_self]
      exact iff_of_false Bool.false_ne_true fun hne => hne.1 rfl
    · rw [Function.update_of_ne hts]
      exact (and_iff_right hts).symm
  rw [Arena.Counted, hslots]
  unfold Arena.remove
  split
  · rename_i hd
    rw [Finset.erase_eq_of_notMem (by rw [Arena.mem_occupied, hd]; exact Bool.false_ne_true)]
    exact h
  · rename_i v hd
    have hmem : s ∈ a.slotsWhere fun _ => true := by
      rw [Arena.mem_occupied, hd]
      rfl
    rw [Finset.card_erase_of_mem hmem]
    exact congrArg (· - 1) h

theorem Arena.Counted.modify (h : a.Counted) (s : Nat) (f : T → T) : (a.modify s f).Counted := by
  have hslots : (a.modify s f).slotsWhere (fun _ => true) = a.slotsWhere fun _ => true := by
    ext t
    rw [Arena.mem_occupied, Arena.mem_occupied, Arena.data_modify]
    by_cases hts : t = s
    · subst hts
      rw [Function.update_self, Option.isSome_map]
    · rw [Function.update_of_ne hts]
  rw [Arena.Counted, hslots]
  exact h

end Counted

/-- The same values in the same slots, and counters that count them. -/
def Likeness.stored : Likeness where
  rel a b := a.data = b.data ∧ a.Counted ∧ b.Counted
  data h := h.1
  len := by
    rintro T C a b ⟨hdata, ha, hb⟩
    have hslots : (a.slotsWhere fun _ => true) = b.slotsWhere fun _ => true := by
      ext s
      rw [Arena.mem_occupied, Arena.mem_occupied, hdata]
    rw [ha, hb, hslots]
  new := ⟨rfl, Arena.counted_new, Arena.counted_new⟩
  insertAt := by
    rintro T C a b ⟨hdata, ha, hb⟩ s v
    refine ⟨?_, ha.insertAt s v, hb.insertAt s v⟩
    by_cases hcap : s < C
    · cases hd : a.data s with
      | none => rw [Arena.data_insertAt _ hcap hd, Arena.data_insertAt _ hcap (hdata ▸ hd), hdata]
      | some w =>
          unfold Arena.insertAt
          rw [dif_neg (not_le.mpr hcap), dif_neg (not_le.mpr hcap)]
          split
          · split
            · exact hdata
            · rename_i hb
              rw [← hdata, hd] at hb
              cases hb
          · rename_i ha
            rw [hd] at ha
            cases ha
    · rw [Arena.insertAt_of_le (not_lt.mp hcap), Arena.insertAt_of_le (not_lt.mp hcap)]
      exact hdata
  remove := by
    rintro T C a b ⟨hdata, ha, hb⟩ s
    exact ⟨by rw [Arena.data_remove, Arena.data_remove, hdata], ha.remove s, hb.remove s⟩
  modify := by
    rintro T C a b ⟨hdata, ha, hb⟩ s f
    exact ⟨by rw [Arena.data_modify, Arena.data_modify, hdata], ha.modify s f, hb.modify s f⟩

/-- What a graph holds besides its pools and its log. -/
def TypeGraph.frame (g : TypeGraph) : TypeGraph :=
  { g with
    inodes := .new, dirs := .new, caps := .new, transactions := .new, versions := .new, blocks := .new,
    edges := .new, provLog := none }

/-- The pools are alike and everything else but the log is equal. -/
structure Alike (L : Likeness) (g g' : TypeGraph) : Prop where
  inodes : L.rel g.inodes g'.inodes
  dirs : L.rel g.dirs g'.dirs
  caps : L.rel g.caps g'.caps
  transactions : L.rel g.transactions g'.transactions
  versions : L.rel g.versions g'.versions
  blocks : L.rel g.blocks g'.blocks
  edges : L.rel g.edges g'.edges
  frame : g.frame = g'.frame

namespace Alike

variable {L : Likeness} {g g' : TypeGraph}

theorem refl (g : TypeGraph) : Alike .exact g g := ⟨rfl, rfl, rfl, rfl, rfl, rfl, rfl, rfl⟩

/-! ### Reads -/

section Reads

variable (h : Alike L g g')

include h

/-- A read of the frame. -/
theorem field {β : Type} (f : TypeGraph → β) : f g.frame = f g'.frame := congrArg f h.frame

theorem getInode (id : InodeId) : g.getInode id = g'.getInode id := by
  unfold TypeGraph.getInode
  rw [Arena.get_eq_data, Arena.get_eq_data, L.data h.inodes]

theorem getDir (id : DirId) : g.getDir id = g'.getDir id := by
  unfold TypeGraph.getDir
  rw [Arena.get_eq_data, Arena.get_eq_data, L.data h.dirs]

theorem getCap (id : CapId) : g.getCap id = g'.getCap id := by
  unfold TypeGraph.getCap
  rw [Arena.get_eq_data, Arena.get_eq_data, L.data h.caps]

theorem getBlock (id : BlockId) : g.getBlock id = g'.getBlock id := by
  unfold TypeGraph.getBlock
  rw [Arena.get_eq_data, Arena.get_eq_data, L.data h.blocks]

theorem getEdge (id : EdgeId) : g.getEdge id = g'.getEdge id := by
  unfold TypeGraph.getEdge
  rw [Arena.get_eq_data, Arena.get_eq_data, L.data h.edges]

theorem containsNode (node : NodeId) : g.containsNode node = g'.containsNode node := by
  cases node with
  | inode id => exact congrArg Option.isSome (h.getInode id)
  | directory id => exact congrArg Option.isSome (h.getDir id)
  | capability id => exact congrArg Option.isSome (h.getCap id)
  | block id => exact congrArg Option.isSome (h.getBlock id)
  | xattr id => exact h.field fun r => r.xattrs.contains id
  | transaction id =>
      change g.transactions.contains _ = g'.transactions.contains _
      rw [Arena.contains_eq_isSome, Arena.contains_eq_isSome, L.data h.transactions]
  | version id =>
      change g.versions.contains _ = g'.versions.contains _
      rw [Arena.contains_eq_isSome, Arena.contains_eq_isSome, L.data h.versions]

theorem containsInode (id : InodeId) : g.containsInode id = g'.containsInode id := h.containsNode (.inode id)

theorem containsDir (id : DirId) : g.containsDir id = g'.containsDir id := h.containsNode (.directory id)

theorem dirContains : g.dirContains = g'.dirContains := h.field TypeGraph.dirContains

theorem inodeIncomingContains : g.inodeIncomingContains = g'.inodeIncomingContains :=
  h.field TypeGraph.inodeIncomingContains

theorem inodePointsTo : g.inodePointsTo = g'.inodePointsTo := h.field TypeGraph.inodePointsTo

theorem fileData : g.fileData = g'.fileData := h.field TypeGraph.fileData

theorem xattrs : g.xattrs = g'.xattrs := h.field TypeGraph.xattrs

theorem inodeXattrs : g.inodeXattrs = g'.inodeXattrs := h.field TypeGraph.inodeXattrs

theorem symlinkTargets : g.symlinkTargets = g'.symlinkTargets := h.field TypeGraph.symlinkTargets

theorem dirForInodeIdx : g.dirForInodeIdx = g'.dirForInodeIdx := h.field TypeGraph.dirForInodeIdx

theorem dirNameIdx : g.dirNameIdx = g'.dirNameIdx := h.field TypeGraph.dirNameIdx

theorem acls : g.acls = g'.acls := h.field TypeGraph.acls

theorem quotas : g.quotas = g'.quotas := h.field TypeGraph.quotas

theorem capParent : g.capParent = g'.capParent := h.field TypeGraph.capParent

theorem capCtx : g.capCtx = g'.capCtx := h.field TypeGraph.capCtx

theorem nextInode : g.nextInode = g'.nextInode := h.field TypeGraph.nextInode

theorem nextDir : g.nextDir = g'.nextDir := h.field TypeGraph.nextDir

theorem nextBlock : g.nextBlock = g'.nextBlock := h.field TypeGraph.nextBlock

theorem nextXattr : g.nextXattr = g'.nextXattr := h.field TypeGraph.nextXattr

theorem nextCap : g.nextCap = g'.nextCap := h.field TypeGraph.nextCap

theorem nextEdge : g.nextEdge = g'.nextEdge := h.field TypeGraph.nextEdge

theorem rootDir : g.rootDir = g'.rootDir := h.field TypeGraph.rootDir

theorem rootInode : g.rootInode = g'.rootInode := h.field TypeGraph.rootInode

theorem iterInodes : g.inodes.iter = g'.inodes.iter := Arena.iter_congr (L.data h.inodes)

theorem iterDirs : g.dirs.iter = g'.dirs.iter := Arena.iter_congr (L.data h.dirs)

theorem iterBlocks : g.blocks.iter = g'.blocks.iter := Arena.iter_congr (L.data h.blocks)

theorem iterEdges : g.edges.iter = g'.edges.iter := Arena.iter_congr (L.data h.edges)

theorem requireCap (needed : UInt8) : g.requireCap needed = g'.requireCap needed := by
  have hcap : g.getCap = g'.getCap := funext h.getCap
  unfold TypeGraph.requireCap
  rw [h.capCtx, hcap]

theorem dirEntries (d : DirId) : g.dirEntries d = g'.dirEntries d := by
  have hedge : g.getEdge = g'.getEdge := funext h.getEdge
  unfold TypeGraph.dirEntries
  rw [h.dirContains, hedge]

theorem lookupName (d : DirId) (n : String) : g.lookupName d n = g'.lookupName d n := by
  have hedge : g.getEdge = g'.getEdge := funext h.getEdge
  unfold TypeGraph.lookupName TypeGraph.scanName
  rw [h.dirNameIdx, h.dirEntries, hedge]

theorem resolveName (d : DirId) (n : String) : g.resolveName d n = g'.resolveName d n := by
  unfold TypeGraph.resolveName
  rw [h.lookupName]

theorem listDir (d : DirId) : g.listDir d = g'.listDir d := by
  unfold TypeGraph.listDir
  rw [h.dirEntries]

theorem dirForInode (t : InodeId) : g.dirForInode t = g'.dirForInode t := by
  unfold TypeGraph.dirForInode
  rw [h.dirForInodeIdx]

theorem parentDir (d : DirId) : g.parentDir d = g'.parentDir d := by
  have hdir : g.dirForInode = g'.dirForInode := funext h.dirForInode
  unfold TypeGraph.parentDir
  rw [h.resolveName, hdir]

theorem resolvePath (path : String) : g.resolvePath path = g'.resolvePath path := by
  have hcomponent : g.resolveComponent = g'.resolveComponent := by
    have hname : g.resolveName = g'.resolveName := funext fun d => funext (h.resolveName d)
    have hdir : g.dirForInode = g'.dirForInode := funext h.dirForInode
    have hinode : g.getInode = g'.getInode := funext h.getInode
    funext current component
    unfold TypeGraph.resolveComponent
    rw [hname, hdir, hinode]
  unfold TypeGraph.resolvePath
  rw [hcomponent, h.rootDir, h.rootInode]

theorem childDirs : g.childDirs = g'.childDirs := by
  have hinode : g.getInode = g'.getInode := funext h.getInode
  have hdir : g.dirForInode = g'.dirForInode := funext h.dirForInode
  funext d
  unfold TypeGraph.childDirs
  rw [h.dirEntries, hinode, hdir]

theorem isAncestor (a d : DirId) : g.isAncestor a d = g'.isAncestor a d := by
  unfold TypeGraph.isAncestor TypeGraph.isDescendantOf
  rw [h.childDirs, h.dirContains]

theorem wouldCycle (t : InodeId) (d : DirId) : g.wouldCycle t d = g'.wouldCycle t d := by
  have hdir : g.dirForInode = g'.dirForInode := funext h.dirForInode
  have hanc : g.isAncestor = g'.isAncestor := funext fun a => funext (h.isAncestor a)
  unfold TypeGraph.wouldCycle
  rw [h.getInode, hdir, hanc]

theorem dirNotEmpty (d : DirId) : g.dirNotEmpty d = g'.dirNotEmpty d := by
  unfold TypeGraph.dirNotEmpty
  rw [h.dirEntries]

theorem rmdirEdges (d : DirId) (n : String) (t : InodeId) (td : DirId) :
    g.rmdirEdges d n t td = g'.rmdirEdges d n t td := by
  unfold TypeGraph.rmdirEdges
  rw [h.dirEntries, h.dirContains]

theorem findEntry (d : DirId) (t : InodeId) (n : String) : g.findEntry d t n = g'.findEntry d t n := by
  unfold TypeGraph.findEntry
  rw [h.dirEntries]

theorem findXattr (t : InodeId) (ns : XAttrNamespace) (n : String) :
    g.findXattr t ns n = g'.findXattr t ns n := by
  unfold TypeGraph.findXattr
  rw [h.inodeXattrs, h.xattrs]

theorem findXattrEdge (t : InodeId) (x : XAttrId) : g.findXattrEdge t x = g'.findXattrEdge t x := by
  unfold TypeGraph.findXattrEdge
  rw [h.iterEdges]

theorem grantsInto (t : InodeId) : g.grantsInto t = g'.grantsInto t := by
  unfold TypeGraph.grantsInto
  rw [h.iterEdges]

theorem incomingNames (t : InodeId) : g.incomingNames t = g'.incomingNames t := by
  have hedge : g.getEdge = g'.getEdge := funext h.getEdge
  unfold TypeGraph.incomingNames
  rw [h.inodeIncomingContains, hedge]

end Reads

/-! ### Writes -/

/-- What `remove` takes out of alike arenas is the same. -/
theorem removed {T : Type} {C : Nat} {a b : Arena T C} (h : L.rel a b) (s : Nat) :
    (b.remove s).1 = (a.remove s).1 := by
  rw [Arena.remove_fst, Arena.remove_fst, L.data h]

section Writes

variable (h : Alike L g g')

include h

theorem insertInode (id : InodeId) (inode : Inode) :
    Alike L (g.insertInode id inode) (g'.insertInode id inode) :=
  { h with inodes := L.insertAt h.inodes _ _ }

theorem insertDir (id : DirId) (dir : Directory) : Alike L (g.insertDir id dir) (g'.insertDir id dir) :=
  { h with
    dirs := L.insertAt h.dirs _ _
    frame := h.field fun r => { r with dirForInodeIdx := r.dirForInodeIdx.insert dir.inodeId id } }

theorem insertCap (id : CapId) (cap : Capability) : Alike L (g.insertCap id cap) (g'.insertCap id cap) :=
  { h with caps := L.insertAt h.caps _ _ }

theorem insertBlock (id : BlockId) (block : Block) :
    Alike L (g.insertBlock id block) (g'.insertBlock id block) :=
  { h with blocks := L.insertAt h.blocks _ _ }

theorem insertEdge (id : EdgeId) (edge : Edge) : Alike L (g.insertEdge id edge) (g'.insertEdge id edge) := by
  cases edge with
  | contains eid src tgt name =>
      exact
        { h with
          edges := L.insertAt h.edges _ _
          frame := h.field fun r => { r with dirNameIdx := r.dirNameIdx.insert (src, name) id } }
  | grants | delegates | derivedFrom | supersedes | pointsTo | hasXattr =>
      exact { h with edges := L.insertAt h.edges _ _ }

theorem modifyInode (id : InodeId) (f : Inode → Inode) :
    Alike L (g.modifyInode id f) (g'.modifyInode id f) :=
  { h with inodes := L.modify h.inodes _ _ }

theorem modifyBlock (id : BlockId) (f : Block → Block) :
    Alike L (g.modifyBlock id f) (g'.modifyBlock id f) :=
  { h with blocks := L.modify h.blocks _ _ }

theorem modifyEdge (id : EdgeId) (f : Edge → Edge) : Alike L (g.modifyEdge id f) (g'.modifyEdge id f) :=
  { h with edges := L.modify h.edges _ _ }

theorem removeInode (id : InodeId) : Alike L (g.removeInode id) (g'.removeInode id) :=
  { h with inodes := L.remove h.inodes _ }

theorem removeCap (id : CapId) : Alike L (g.removeCap id) (g'.removeCap id) :=
  { h with caps := L.remove h.caps _ }

theorem removeBlock (id : BlockId) : Alike L (g.removeBlock id) (g'.removeBlock id) :=
  { h with blocks := L.remove h.blocks _ }

theorem removeDir (id : DirId) : Alike L (g.removeDir id) (g'.removeDir id) := by
  have hrel := L.remove h.dirs (idToArena id)
  have hfst := removed h.dirs (idToArena id)
  unfold TypeGraph.removeDir
  generalize g.dirs.remove (idToArena id) = r, g'.dirs.remove (idToArena id) = r' at hrel hfst ⊢
  obtain ⟨o, a⟩ := r
  obtain ⟨o', a'⟩ := r'
  dsimp only at hrel hfst ⊢
  subst hfst
  cases o' with
  | none => exact { h with dirs := hrel }
  | some d =>
      exact
        { h with
          dirs := hrel
          frame := h.field fun r => { r with dirForInodeIdx := r.dirForInodeIdx.erase d.inodeId } }

theorem removeEdge (id : EdgeId) :
    (g'.removeEdge id).1 = (g.removeEdge id).1 ∧ Alike L (g.removeEdge id).2 (g'.removeEdge id).2 := by
  have hrel := L.remove h.edges (idToArena id)
  have hfst := removed h.edges (idToArena id)
  unfold TypeGraph.removeEdge
  generalize g.edges.remove (idToArena id) = r, g'.edges.remove (idToArena id) = r' at hrel hfst ⊢
  obtain ⟨o, a⟩ := r
  obtain ⟨o', a'⟩ := r'
  dsimp only at hrel hfst ⊢
  subst hfst
  cases o' with
  | none => exact ⟨rfl, h⟩
  | some e =>
      cases e with
      | contains eid src tgt name =>
          exact ⟨rfl,
            { h with
              edges := hrel
              frame := h.field fun r => { r with dirNameIdx := r.dirNameIdx.erase (src, name) } }⟩
      | grants | delegates | derivedFrom | supersedes | pointsTo | hasXattr =>
          exact ⟨rfl, { h with edges := hrel }⟩

theorem renameContainsEdge (id : EdgeId) (n : String) :
    Alike L (g.renameContainsEdge id n).2 (g'.renameContainsEdge id n).2 := by
  unfold TypeGraph.renameContainsEdge
  rw [← h.getEdge]
  split
  · rename_i src tgt oldName hedge
    by_cases hold : oldName = n
    · rw [if_pos hold, if_pos hold]
      exact h
    · rw [if_neg hold, if_neg hold]
      exact
        { h with
          edges := L.modify h.edges _ _
          frame := h.field fun r =>
            { r with dirNameIdx := (r.dirNameIdx.erase (src, oldName)).insert (src, n) id } }
  · exact h

theorem onDirContains (f : SetIndex DirId EdgeId → SetIndex DirId EdgeId) :
    Alike L { g with dirContains := f g.dirContains } { g' with dirContains := f g'.dirContains } :=
  { h with frame := h.field fun r => { r with dirContains := f r.dirContains } }

theorem onIncoming (f : SetIndex InodeId EdgeId → SetIndex InodeId EdgeId) :
    Alike L { g with inodeIncomingContains := f g.inodeIncomingContains }
      { g' with inodeIncomingContains := f g'.inodeIncomingContains } :=
  { h with frame := h.field fun r => { r with inodeIncomingContains := f r.inodeIncomingContains } }

theorem onPointsTo (f : SetIndex InodeId EdgeId → SetIndex InodeId EdgeId) :
    Alike L { g with inodePointsTo := f g.inodePointsTo } { g' with inodePointsTo := f g'.inodePointsTo } :=
  { h with frame := h.field fun r => { r with inodePointsTo := f r.inodePointsTo } }

theorem onFileData (f : ExtTreeMap InodeId (List UInt8) → ExtTreeMap InodeId (List UInt8)) :
    Alike L { g with fileData := f g.fileData } { g' with fileData := f g'.fileData } :=
  { h with frame := h.field fun r => { r with fileData := f r.fileData } }

theorem onXattrs (f : ExtTreeMap XAttrId XAttr → ExtTreeMap XAttrId XAttr) :
    Alike L { g with xattrs := f g.xattrs } { g' with xattrs := f g'.xattrs } :=
  { h with frame := h.field fun r => { r with xattrs := f r.xattrs } }

theorem onInodeXattrs (f : SetIndex InodeId XAttrId → SetIndex InodeId XAttrId) :
    Alike L { g with inodeXattrs := f g.inodeXattrs } { g' with inodeXattrs := f g'.inodeXattrs } :=
  { h with frame := h.field fun r => { r with inodeXattrs := f r.inodeXattrs } }

theorem onSymlinkTargets (f : ExtTreeMap InodeId SymlinkTarget → ExtTreeMap InodeId SymlinkTarget) :
    Alike L { g with symlinkTargets := f g.symlinkTargets }
      { g' with symlinkTargets := f g'.symlinkTargets } :=
  { h with frame := h.field fun r => { r with symlinkTargets := f r.symlinkTargets } }

theorem onAcls (f : ExtTreeMap InodeId (List AclEntry) → ExtTreeMap InodeId (List AclEntry)) :
    Alike L { g with acls := f g.acls } { g' with acls := f g'.acls } :=
  { h with frame := h.field fun r => { r with acls := f r.acls } }

theorem onQuotas (f : ExtTreeMap DirId Quota → ExtTreeMap DirId Quota) :
    Alike L { g with quotas := f g.quotas } { g' with quotas := f g'.quotas } :=
  { h with frame := h.field fun r => { r with quotas := f r.quotas } }

theorem onCapGrants (f : ExtTreeMap CapId EdgeId → ExtTreeMap CapId EdgeId) :
    Alike L { g with capGrants := f g.capGrants } { g' with capGrants := f g'.capGrants } :=
  { h with frame := h.field fun r => { r with capGrants := f r.capGrants } }

theorem allocEdgeId : Alike L g.allocEdgeId.2 g'.allocEdgeId.2 :=
  { h with frame := h.field fun r => { r with nextEdge := r.nextEdge + 1 } }

theorem setCapCtx (ctx : CapContext) : Alike L (g.setCapCtx ctx) (g'.setCapCtx ctx) :=
  { h with frame := h.field fun r => { r with capCtx := ctx } }

/-- The log is not part of the likeness: both sides may log what they like. -/
theorem onProvLog (log log' : Option ProvenanceLog) :
    Alike L { g with provLog := log } { g' with provLog := log' } :=
  { h with }

theorem recordProv (now : Timestamp) (op : ProvOp) (t : InodeId) (detail : String) :
    Alike L (g.recordProv now op t detail) (g'.recordProv now op t detail) :=
  h.onProvLog _ _

theorem addContains (id : EdgeId) (src : DirId) (tgt : InodeId) (name : String) :
    Alike L (g.addContains id src tgt name) (g'.addContains id src tgt name) :=
  ((h.insertEdge id _).onDirContains (SetIndex.add · src id)).onIncoming (SetIndex.add · tgt id)

theorem detachContains (id : EdgeId) : Alike L (g.detachContains id) (g'.detachContains id) := by
  obtain ⟨hfst, hrest⟩ := h.removeEdge id
  unfold TypeGraph.detachContains
  generalize g.removeEdge id = r, g'.removeEdge id = r' at hfst hrest ⊢
  obtain ⟨o, gr⟩ := r
  obtain ⟨o', gr'⟩ := r'
  dsimp only at hfst hrest ⊢
  subst hfst
  cases o' with
  | none => exact hrest
  | some e =>
      cases e with
      | contains eid src tgt name =>
          exact (hrest.onDirContains (SetIndex.drop · src id)).onIncoming (SetIndex.drop · tgt id)
      | grants | delegates | derivedFrom | supersedes | pointsTo | hasXattr => exact hrest

end Writes

/-- A fold of writes that respect the likeness respects it. -/
theorem foldl {α : Type} {write : TypeGraph → α → TypeGraph}
    (hwrite : ∀ {g g' : TypeGraph}, Alike L g g' → ∀ a, Alike L (write g a) (write g' a)) (xs : List α) :
    ∀ {g g' : TypeGraph}, Alike L g g' → Alike L (xs.foldl write g) (xs.foldl write g') := by
  induction xs with
  | nil =>
      intro g g' h
      exact h
  | cons a xs ih =>
      intro g g' h
      exact ih (hwrite h a)

end Alike

end SotFs
