/-
Module: SotFs.Proofs.Replay
Layer: Proofs
Purpose: Replaying the Graph Hunter export. The events are sorted by their timestamps and nodes are collected
  before edges, so an edge comes after a node exactly when its timestamp is not less than the node's. An edge
  takes its timestamp from one endpoint alone or has none, so the other endpoint may be younger: the export
  replays exactly when every stored edge is timely. Every record of a pool sits at the slot of its id, along
  every run, so no node is added twice.
Trusted boundary: none
Main exports: ClockRun, Slotted, TypeGraph.Replays, Edge.Timely, replays_iff_timely, replay_misses
-/
import SotFs.Foundation.StableSort
import SotFs.Core.Export
import SotFs.Proofs.Holdings
import SotFs.Proofs.Reload

namespace SotFs

open Std (ExtTreeMap ExtTreeSet)
open Foundation

/-! ### Names -/

/-- Different nodes have different names. -/
theorem NodeId.hunterName_injective : Function.Injective NodeId.hunterName := by
  intro a b h
  have hletter := congrArg (fun name => name.toList.head?) h
  cases a <;> cases b <;> simp [NodeId.hunterName] at h hletter ⊢ <;> exact h

/-! ### The slots of the records -/

/-- Every record sits at the slot of its id. -/
structure Arena.IdSlots {T : Type} {C : Nat} (a : Arena T C) (idOf : T → Nat) : Prop where
  slot : ∀ {s v}, a.data s = some v → idToArena (idOf v) = s

namespace Arena.IdSlots

variable {T : Type} {C : Nat} {a : Arena T C} {idOf : T → Nat}

theorem new : (Arena.new : Arena T C).IdSlots idOf where
  slot := by
    intro s v hs
    cases hs

/-- A record that is inserted at the slot of its id, stored or refused. -/
theorem insertAt (h : a.IdSlots idOf) {v : T} {id : Nat} (hid : idOf v = id) :
    (a.insertAt (idToArena id) v).2.IdSlots idOf := by
  refine ⟨fun {s w} hw => ?_⟩
  unfold Arena.insertAt at hw
  split at hw
  · exact h.slot hw
  · split at hw
    · exact h.slot hw
    · change Function.update a.data (idToArena id) (some v) s = some w at hw
      rw [Function.update_apply] at hw
      split at hw
      · rename_i hs
        cases hw
        rw [hid, hs]
      · exact h.slot hw

theorem remove (h : a.IdSlots idOf) (slot : Nat) : (a.remove slot).2.IdSlots idOf := by
  refine ⟨fun {s w} hw => ?_⟩
  rw [Arena.data_remove, Function.update_apply] at hw
  split at hw
  · cases hw
  · exact h.slot hw

theorem modify (h : a.IdSlots idOf) (slot : Nat) {f : T → T} (hf : ∀ v, idOf (f v) = idOf v) :
    (a.modify slot f).IdSlots idOf := by
  refine ⟨fun {s w} hw => ?_⟩
  rw [Arena.data_modify, Function.update_apply] at hw
  split at hw
  · rename_i hs
    subst hs
    obtain ⟨v, hv, rfl⟩ := Option.map_eq_some_iff.mp hw
    rw [hf]
    exact h.slot hv
  · exact h.slot hw

/-- The ids of the records are all different. -/
theorem nodup (h : a.IdSlots idOf) : (a.iter.map fun entry => idOf entry.2).Nodup := by
  refine a.iter_nodup.map_on ?_
  rintro ⟨s, v⟩ hv ⟨s', v'⟩ hv' hid
  rw [Arena.mem_iter] at hv hv'
  dsimp only at hid
  have hs : s = s' := by rw [← h.slot hv, ← h.slot hv', hid]
  subst hs
  rw [hv] at hv'
  cases hv'
  rfl

end Arena.IdSlots

/-- Every exported record sits at the slot of its id, and there are no versions. -/
structure Slotted (g : TypeGraph) : Prop where
  inodes : g.inodes.IdSlots Inode.id
  dirs : g.dirs.IdSlots Directory.id
  caps : g.caps.IdSlots Capability.id
  blocks : g.blocks.IdSlots Block.id
  versions : ∀ s, g.versions.data s = none

namespace Slotted

variable {g : TypeGraph} {now : Nat → Timestamp}

theorem new (t : Timestamp) : Slotted (.new t) where
  inodes := .insertAt .new rfl
  dirs := .insertAt .new rfl
  caps := .new
  blocks := .new
  versions _ := rfl

theorem removeEdge (h : Slotted g) (e : EdgeId) : Slotted (g.removeEdge e).2 := by
  obtain ⟨_, _, heq⟩ := removeEdge_frame (g := g) e
  rw [heq]
  exact ⟨h.inodes, h.dirs, h.caps, h.blocks, h.versions⟩

theorem modifyBlock (h : Slotted g) (b : BlockId) {f : Block → Block} (hf : ∀ blk, (f blk).id = blk.id) :
    Slotted (g.modifyBlock b f) := ⟨h.inodes, h.dirs, h.caps, h.blocks.modify _ hf, h.versions⟩

theorem removeBlock (h : Slotted g) (b : BlockId) : Slotted (g.removeBlock b) :=
  ⟨h.inodes, h.dirs, h.caps, h.blocks.remove _, h.versions⟩

theorem releaseBlockEdge (h : Slotted g) (e : EdgeId) : Slotted (g.releaseBlockEdge e) := by
  have hremoved := h.removeEdge e
  unfold TypeGraph.releaseBlockEdge
  split
  · rename_i heq
    rw [heq] at hremoved
    dsimp only at hremoved
    split
    · dsimp only
      split
      · exact (hremoved.modifyBlock _ (by intro b; rfl)).removeBlock _
      · exact hremoved.modifyBlock _ (by intro b; rfl)
    · exact hremoved
  · rename_i heq
    rw [heq] at hremoved
    exact hremoved

theorem foldl_releaseBlockEdge (es : List EdgeId) : ∀ {g : TypeGraph}, Slotted g →
    Slotted (es.foldl TypeGraph.releaseBlockEdge g) := by
  induction es with
  | nil =>
      intro g h
      exact h
  | cons e es ih =>
      intro g h
      exact ih (h.releaseBlockEdge e)

theorem dropName (h : Slotted g) (e : EdgeId) (d : DirId) (t : InodeId) : Slotted (g.dropName e d t) := by
  obtain ⟨_, _, _, _, heq⟩ := dropName_frame (g := g) e d t
  rw [heq]
  exact ⟨h.inodes.modify _ fun _ => rfl, h.dirs, h.caps, h.blocks, h.versions⟩

theorem dropLastName (h : Slotted g) (e : EdgeId) (d : DirId) (t : InodeId) :
    Slotted (g.dropLastName e d t) := by
  have hdropped := h.dropName e d t
  have hreleased := foldl_releaseBlockEdge (SetIndex.members (g.dropName e d t).inodePointsTo t).toList
    (g := { g.dropName e d t with inodePointsTo := (g.dropName e d t).inodePointsTo.erase t })
    ⟨hdropped.inodes, hdropped.dirs, hdropped.caps, hdropped.blocks, hdropped.versions⟩
  exact ⟨hreleased.inodes.remove _, hreleased.dirs, hreleased.caps, hreleased.blocks, hreleased.versions⟩

theorem dropDir (h : Slotted g) (p : DirId) (n : String) (ti : InodeId) (td : DirId) :
    Slotted (g.dropDir p n ti td) := by
  obtain ⟨_, _, _, _, heq⟩ := foldl_detachContains_frame (g.rmdirEdges p n ti td) (g := g)
  unfold TypeGraph.dropDir TypeGraph.removeDir
  rw [heq]
  dsimp only
  split
  · exact ⟨h.inodes.remove _, h.dirs.remove _, h.caps, h.blocks, h.versions⟩
  · exact ⟨h.inodes.remove _, h.dirs.remove _, h.caps, h.blocks, h.versions⟩

theorem foldl_removeCap (cs : List CapId) : ∀ {g : TypeGraph}, Slotted g →
    Slotted (cs.foldl TypeGraph.removeCap g) := by
  induction cs with
  | nil =>
      intro g h
      exact h
  | cons c cs ih =>
      intro g h
      exact ih ⟨h.inodes, h.dirs, h.caps.remove _, h.blocks, h.versions⟩

theorem dropGrants (h : Slotted g) (t : InodeId) : Slotted (g.dropGrants t) := by
  obtain ⟨_, _, _, heq⟩ := foldl_purgeGrant_frame (g.grantsInto t) g []
  unfold TypeGraph.dropGrants
  dsimp only
  rw [heq]
  exact foldl_removeCap _ ⟨h.inodes, h.dirs, h.caps, h.blocks, h.versions⟩

theorem foldl_grantEntry (t : InodeId) (mask : Option Rights) (entries : List AclEntry) :
    ∀ {g : TypeGraph}, Slotted g → Slotted (entries.foldl (TypeGraph.grantEntry t mask) g) := by
  induction entries with
  | nil =>
      intro g h
      exact h
  | cons entry entries ih =>
      intro g h
      rw [List.foldl_cons, grantEntry_eq]
      split
      · exact ih h
      · exact ih ⟨h.inodes, h.dirs, h.caps.insertAt rfl, h.blocks, h.versions⟩

theorem enterInode (h : Slotted g) {inode : Inode} (hid : inode.id = g.nextInode) (d : DirId) (n : String) :
    Slotted (g.enterInode inode d n) := ⟨h.inodes.insertAt hid, h.dirs, h.caps, h.blocks, h.versions⟩

theorem enterSymlink (h : Slotted g) {inode : Inode} (hid : inode.id = g.nextInode) (d : DirId)
    (n target : String) : Slotted (g.enterSymlink inode d n target) :=
  ⟨h.inodes.insertAt hid, h.dirs, h.caps, h.blocks, h.versions⟩

theorem enterDir (h : Slotted g) {inode : Inode} (hid : inode.id = g.nextInode) (d : DirId) (di : InodeId)
    (n : String) : Slotted (g.enterDir inode d di n) :=
  ⟨h.inodes.insertAt hid, h.dirs.insertAt rfl, h.caps, h.blocks, h.versions⟩

theorem settle {α : Type} (h : Slotted g) (d : DirId) (delta : Int) (now : Timestamp) (op : ProvOp)
    (t : InodeId) (detail : String) (value : α) : Slotted (g.settle d delta now op t detail value).2 := by
  obtain ⟨_, _, heq⟩ := settle_snd g d delta now op t detail value
  rw [heq]
  exact ⟨h.inodes, h.dirs, h.caps, h.blocks, h.versions⟩

theorem recordProv (h : Slotted g) (now : Timestamp) (op : ProvOp) (t : InodeId) (detail : String) :
    Slotted (g.recordProv now op t detail) := ⟨h.inodes, h.dirs, h.caps, h.blocks, h.versions⟩

theorem unlink (h : Slotted g) (d : DirId) (n : String) : Slotted (SotFs.unlink now d n g).2 := by
  rcases unlink_cases now d n g with
    ⟨o, _, heq⟩ | ⟨_, _, _, e, t, m, inode, _, _, _, ⟨_, heq⟩ | ⟨_, heq⟩⟩
  · rw [heq]
    exact h
  · rw [heq]
    exact (h.dropName e d t).recordProv _ _ _ _
  · rw [heq]
    exact (h.dropLastName e d t).settle _ _ _ _ _ _ _

theorem rmdir (h : Slotted g) (d : DirId) (n : String) : Slotted (SotFs.rmdir now d n g).2 := by
  rcases rmdir_cases now d n g with
    ⟨o, _, heq⟩ | ⟨_, _, ti, td, inode, _, _, _, _, _, heq⟩
  · rw [heq]
    exact h
  · rw [heq]
    exact (h.dropDir d n ti td).settle _ _ _ _ _ _ _

theorem rename (h : Slotted g) (sd : DirId) (sn : String) (dd : DirId) (dn : String) :
    Slotted (SotFs.rename now sd sn dd dn g).2 := by
  exact rename_keeps_frame h (h.rmdir dd dn) (h.unlink dd dn)
    fun _ _ _ _ _ _ h₁ => ⟨h₁.inodes, h₁.dirs, h₁.caps, h₁.blocks, h₁.versions⟩

/-- Every call keeps the records at the slots of their ids, whatever its arguments and outcome. -/
theorem apply (h : Slotted g) (op : Op) : Slotted (op.apply now g).2 := by
  cases op with
  | createFile d n u gr p =>
      rw [Op.apply, Prod.map_snd]
      rcases createFile_cases now d n u gr p g with
        ⟨o, _, heq⟩ | ⟨_, _, _, _, _, heq⟩
      · rw [heq]
        exact h
      · rw [heq]
        exact (h.enterInode rfl d n).settle _ _ _ _ _ _ _
  | mkdir d n u gr p =>
      rw [Op.apply, Prod.map_snd]
      rcases mkdir_cases now d n u gr p g with
        ⟨o, _, heq⟩ | ⟨_, _, _, _, parent, _, heq⟩
      · rw [heq]
        exact h
      · rw [heq]
        exact (h.enterDir rfl d parent.inodeId n).settle _ _ _ _ _ _ _
  | rmdir d n =>
      rw [Op.apply, Prod.map_snd]
      exact h.rmdir d n
  | link d n t =>
      rw [Op.apply, Prod.map_snd]
      rcases link_cases now d n t g with
        ⟨o, _, heq⟩ | ⟨_, _, _, i, _, _, _, heq⟩
      · rw [heq]
        exact h
      · rw [heq]
        exact ⟨h.inodes.modify _ fun _ => rfl, h.dirs, h.caps, h.blocks, h.versions⟩
  | unlink d n =>
      rw [Op.apply, Prod.map_snd]
      exact h.unlink d n
  | rename sd sn dd dn =>
      rw [Op.apply, Prod.map_snd]
      exact h.rename sd sn dd dn
  | symlink d n t u gr =>
      rw [Op.apply, Prod.map_snd]
      rcases symlink_cases now d n t u gr g with
        ⟨o, _, heq⟩ | ⟨_, _, _, _, _, heq⟩
      · rw [heq]
        exact h
      · rw [heq]
        exact (h.enterSymlink rfl d n t).settle _ _ _ _ _ _ _
  | writeBlock t o s c =>
      rcases writeBlock_cases t o s c g with
        ⟨o', _, heq⟩ | ⟨_, _, heq⟩
      · rw [Op.apply, heq]
        exact h
      · rw [Op.apply, heq]
        exact ⟨h.inodes, h.dirs, h.caps, h.blocks.insertAt rfl, h.versions⟩
  | writeData t o b =>
      rcases writeData_cases now t o b g with
        ⟨e, heq⟩ | ⟨_, _, _, ⟨buf, heq⟩ | ⟨buf, heq⟩⟩
      · rw [Op.apply, heq]
        exact h
      · rw [Op.apply, heq]
        exact ⟨h.inodes, h.dirs, h.caps, h.blocks, h.versions⟩
      · rw [Op.apply, heq]
        exact ⟨h.inodes.modify _ fun _ => rfl, h.dirs, h.caps, h.blocks, h.versions⟩
  | truncate t n =>
      rcases truncate_cases now t n g with
        ⟨e, heq⟩ | ⟨_, _, _, ⟨buf, heq⟩ | heq⟩
      · rw [Op.apply, heq]
        exact h
      · rw [Op.apply, heq]
        exact ⟨h.inodes, h.dirs, h.caps, h.blocks, h.versions⟩
      · rw [Op.apply, heq]
        exact ⟨h.inodes.modify _ fun _ => rfl, h.dirs, h.caps, h.blocks, h.versions⟩
  | chmod t m =>
      rcases chmod_cases now t m g with ⟨o, _, heq⟩ | ⟨_, heq⟩
      · rw [Op.apply, heq]
        exact h
      · rw [Op.apply, heq]
        exact ⟨h.inodes.modify _ fun _ => rfl, h.dirs, h.caps, h.blocks, h.versions⟩
  | chown t u gr =>
      rcases chown_cases now t u gr g with ⟨o, _, heq⟩ | ⟨_, heq⟩
      · rw [Op.apply, heq]
        exact h
      · rw [Op.apply, heq]
        exact ⟨h.inodes.modify _ fun _ => rfl, h.dirs, h.caps, h.blocks, h.versions⟩
  | setxattr t ns n v =>
      rcases setxattr_cases now t ns n v g with
        ⟨o, _, heq⟩ | ⟨_, _, _, ⟨a, _, heq⟩ | ⟨_, heq⟩⟩
      · rw [Op.apply, heq]
        exact h
      · rw [Op.apply, heq]
        exact ⟨h.inodes, h.dirs, h.caps, h.blocks, h.versions⟩
      · rw [Op.apply, heq]
        exact ⟨h.inodes, h.dirs, h.caps, h.blocks, h.versions⟩
  | removexattr t ns n =>
      rcases removexattr_cases now t ns n g with
        ⟨o, _, heq⟩ | ⟨_, _, a, _, heq⟩
      · rw [Op.apply, heq]
        exact h
      · obtain ⟨_, _, hdropped⟩ := dropXattr_frame (g := g) t a
        rw [Op.apply, heq, hdropped]
        exact ⟨h.inodes, h.dirs, h.caps, h.blocks, h.versions⟩
  | setacl t entries =>
      rcases setacl_cases now t entries g with
        ⟨o, _, heq⟩ | ⟨_, _, heq⟩
      · rw [Op.apply, heq]
        exact h
      · have hdropped := h.dropGrants t
        rw [Op.apply, heq]
        exact (foldl_grantEntry t (aclMask entries) entries
          (g := { g.dropGrants t with acls := (g.dropGrants t).acls.insert t entries })
          ⟨hdropped.inodes, hdropped.dirs, hdropped.caps, hdropped.blocks, hdropped.versions⟩).recordProv
            _ _ _ _
  | setQuota d il bl =>
      rcases setQuota_cases d il bl g with ⟨o, _, heq⟩ | ⟨_, _, heq⟩
      · rw [Op.apply, heq]
        exact h
      · rw [Op.apply, heq]
        exact ⟨h.inodes, h.dirs, h.caps, h.blocks, h.versions⟩

end Slotted

/-- Along every run the records sit at the slots of their ids. -/
theorem Run.slotted {allowed : TypeGraph → Op → TypeGraph → Prop} {g : TypeGraph} (hrun : Run allowed g) :
    Slotted g := by
  induction hrun with
  | new t => exact .new t
  | call now op _ _ h => exact h.apply op
  | setCapCtx ctx _ h => exact ⟨h.inodes, h.dirs, h.caps, h.blocks, h.versions⟩
  | enableProvLog _ h => exact ⟨h.inodes, h.dirs, h.caps, h.blocks, h.versions⟩
  | disableProvLog _ h => exact ⟨h.inodes, h.dirs, h.caps, h.blocks, h.versions⟩

/-! ### The order of the events -/

/-- The names of the nodes that a list of events adds. -/
def addedNames (events : List (Timestamp × GraphHunterEvent)) : List String :=
  events.filterMap fun event =>
    match event.2 with
    | .addNode node => some node.id.hunterName
    | .addEdge _ => none

/-- A record carries the id of the node. -/
def TypeGraph.LiveNode (g : TypeGraph) : NodeId → Prop
  | .inode i => ∃ inode, g.getInode i = some inode ∧ inode.id = i
  | .directory d => g.LiveDir d
  | .capability c => ∃ cap, g.getCap c = some cap ∧ cap.id = c
  | .block b => ∃ block, g.getBlock b = some block ∧ block.id = b
  | .version v => ∃ s ver, g.versions.data s = some ver ∧ ver.id = v
  | .xattr x => x ∈ g.xattrs
  | .transaction t => g.containsTxn t = true

/-- The edge is stored. -/
def TypeGraph.HasEdge (g : TypeGraph) (edge : Edge) : Prop := ∃ s, g.edges.data s = some edge

/-- The export replays: the timestamps do not go down, both endpoints of an edge are added before it, and
    every live endpoint is added once. -/
structure TypeGraph.Replays (g : TypeGraph) : Prop where
  ordered : g.hunterEvents.Pairwise fun a b => a.1 ≤ b.1
  known : ∀ {pre t edge post}, g.hunterEvents = pre ++ (t, .addEdge edge) :: post →
    edge.srcNode.hunterName ∈ addedNames pre ∧ edge.hunterTgt.hunterName ∈ addedNames pre
  once : ∀ {edge node}, g.HasEdge edge → (node = edge.srcNode ∨ node = edge.hunterTgt) → g.LiveNode node →
    (addedNames g.hunterEvents).count node.hunterName = 1

/-- The node is exported with a timestamp up to `t`. -/
def TypeGraph.Exported (g : TypeGraph) (n : NodeId) (t : Timestamp) : Prop :=
  ∃ node ∈ g.hunterNodes, node.id = n ∧ g.nodeTime node ≤ t

section Order

variable {g : TypeGraph}

theorem mem_addedNames {events : List (Timestamp × GraphHunterEvent)} {name : String} :
    name ∈ addedNames events ↔ ∃ t node, (t, .addNode node) ∈ events ∧ node.id.hunterName = name := by
  unfold addedNames
  rw [List.mem_filterMap]
  constructor
  · rintro ⟨⟨t, event⟩, hmem, hname⟩
    cases event with
    | addNode node => exact ⟨t, node, hmem, Option.some.inj hname⟩
    | addEdge edge => cases hname
  · rintro ⟨t, node, hmem, rfl⟩
    exact ⟨(t, .addNode node), hmem, rfl⟩

theorem TypeGraph.mem_hunterEvents {event : Timestamp × GraphHunterEvent} :
    event ∈ g.hunterEvents ↔ event ∈ g.collectedEvents := List.mem_mergeSort

theorem TypeGraph.addNode_mem {t : Timestamp} {node : HunterNode} :
    (t, .addNode node) ∈ g.collectedEvents ↔ node ∈ g.hunterNodes ∧ g.nodeTime node = t := by
  unfold TypeGraph.collectedEvents
  simp only [List.mem_append, List.mem_map, Prod.mk.injEq, GraphHunterEvent.addNode.injEq, reduceCtorEq,
    and_false, exists_false, or_false]
  constructor
  · rintro ⟨_, hnode, rfl, rfl⟩
    exact ⟨hnode, rfl⟩
  · rintro ⟨hnode, rfl⟩
    exact ⟨node, hnode, rfl, rfl⟩

theorem TypeGraph.addEdge_mem {t : Timestamp} {edge : Edge} :
    (t, .addEdge edge) ∈ g.collectedEvents ↔ g.HasEdge edge ∧ g.edgeTime edge = t := by
  unfold TypeGraph.collectedEvents TypeGraph.HasEdge
  simp only [List.mem_append, List.mem_map, Prod.mk.injEq, GraphHunterEvent.addEdge.injEq, reduceCtorEq,
    and_false, exists_false, false_or, Prod.exists, Arena.mem_iter]
  constructor
  · rintro ⟨s, _, hs, rfl, rfl⟩
    exact ⟨⟨s, hs⟩, rfl⟩
  · rintro ⟨⟨s, hs⟩, rfl⟩
    exact ⟨s, edge, hs, rfl, rfl⟩

/-- Before an edge come the nodes whose timestamps are not greater than the edge's. -/
theorem TypeGraph.mem_addedNames_before {pre post : List (Timestamp × GraphHunterEvent)} {t : Timestamp}
    {edge : Edge} (hsplit : g.hunterEvents = pre ++ (t, .addEdge edge) :: post) {n : NodeId} :
    n.hunterName ∈ addedNames pre ↔ g.Exported n t := by
  have hbefore : ∀ node ∈ g.hunterNodes,
      (g.nodeTime node, GraphHunterEvent.addNode node) ∈ pre ↔ g.nodeTime node ≤ t := by
    intro node hnode
    refine mem_prefix_iff Prod.fst (List.mem_map_of_mem hnode) ?_ hsplit
    simp
  rw [mem_addedNames]
  constructor
  · rintro ⟨t', node, hmem, hname⟩
    have hevent : (t', GraphHunterEvent.addNode node) ∈ g.hunterEvents := by
      rw [hsplit]
      exact List.mem_append_left _ hmem
    obtain ⟨hnode, rfl⟩ := TypeGraph.addNode_mem.mp (TypeGraph.mem_hunterEvents.mp hevent)
    exact ⟨node, hnode, NodeId.hunterName_injective hname, (hbefore node hnode).mp hmem⟩
  · rintro ⟨node, hnode, rfl, hle⟩
    exact ⟨_, node, (hbefore node hnode).mpr hle, rfl⟩

/-- Both endpoints of every edge are added before it exactly when they are exported with timestamps that are
    not greater. -/
theorem TypeGraph.known_iff :
    (∀ {pre t edge post}, g.hunterEvents = pre ++ (t, .addEdge edge) :: post →
      edge.srcNode.hunterName ∈ addedNames pre ∧ edge.hunterTgt.hunterName ∈ addedNames pre) ↔
    ∀ {edge}, g.HasEdge edge →
      g.Exported edge.srcNode (g.edgeTime edge) ∧ g.Exported edge.hunterTgt (g.edgeTime edge) := by
  constructor
  · intro hknown edge hedge
    have hmem : (g.edgeTime edge, GraphHunterEvent.addEdge edge) ∈ g.hunterEvents :=
      TypeGraph.mem_hunterEvents.mpr (TypeGraph.addEdge_mem.mpr ⟨hedge, rfl⟩)
    obtain ⟨pre, post, hsplit⟩ := List.append_of_mem hmem
    have hadded := hknown hsplit
    exact ⟨(TypeGraph.mem_addedNames_before hsplit).mp hadded.1,
      (TypeGraph.mem_addedNames_before hsplit).mp hadded.2⟩
  · intro hexported pre t edge post hsplit
    have hmem : (t, GraphHunterEvent.addEdge edge) ∈ g.hunterEvents := by
      rw [hsplit]
      exact List.mem_append_right _ List.mem_cons_self
    obtain ⟨hedge, rfl⟩ := TypeGraph.addEdge_mem.mp (TypeGraph.mem_hunterEvents.mp hmem)
    rw [TypeGraph.mem_addedNames_before hsplit, TypeGraph.mem_addedNames_before hsplit]
    exact hexported hedge

end Order

/-! ### Timely edges -/

/-- The timestamp of an edge is not before either endpoint's creation, and both endpoints are exported. A name
    has the creation time of its target, a grant the epoch of its capability, every other edge none. -/
def Edge.Timely (g : TypeGraph) : Edge → Prop
  | .contains _ src tgt _ => ∃ dir inode, (g.getDir src = some dir ∧ dir.id = src) ∧
      (g.getInode tgt = some inode ∧ inode.id = tgt) ∧ g.ctimeOf dir.inodeId ≤ inode.ctime
  | .grants _ src tgt _ => ∃ cap inode, (g.getCap src = some cap ∧ cap.id = src) ∧
      (g.getInode tgt = some inode ∧ inode.id = tgt) ∧ inode.ctime ≤ cap.epoch
  | .delegates _ src tgt => ∃ child parent, (g.getCap src = some child ∧ child.id = src) ∧
      (g.getCap tgt = some parent ∧ parent.id = tgt) ∧ child.epoch = 0 ∧ parent.epoch = 0
  | .supersedes _ src tgt => ∃ newer older, (g.getInode src = some newer ∧ newer.id = src) ∧
      (g.getInode tgt = some older ∧ older.id = tgt) ∧ newer.ctime = 0 ∧ older.ctime = 0
  | .pointsTo _ src tgt _ => ∃ inode block, (g.getInode src = some inode ∧ inode.id = src) ∧
      (g.getBlock tgt = some block ∧ block.id = tgt) ∧ inode.ctime = 0
  | .derivedFrom .. | .hasXattr .. => False

namespace Slotted

variable {g : TypeGraph} {t : Timestamp}

/-- The record at the slot of an id, if it carries the id. -/
theorem record_iff {T : Type} {C : Nat} {a : Arena T C} {idOf : T → Nat} (h : a.IdSlots idOf) {id : Nat}
    {v : T} : (∃ s, (s, v) ∈ a.iter ∧ idOf v = id) ↔ a.get (idToArena id) = some v ∧ idOf v = id := by
  simp only [Arena.mem_iter, Arena.get_eq_data]
  constructor
  · rintro ⟨s, hs, rfl⟩
    rw [h.slot hs]
    exact ⟨hs, rfl⟩
  · rintro ⟨hv, rfl⟩
    exact ⟨_, hv, rfl⟩

/-- The exported nodes are the records of the five pools. -/
theorem mem_hunterNodes {node : HunterNode} : node ∈ g.hunterNodes ↔
    match node with
    | .inode i => ∃ s, (s, i) ∈ g.inodes.iter
    | .directory d => ∃ s, (s, d) ∈ g.dirs.iter
    | .capability c => ∃ s, (s, c) ∈ g.caps.iter
    | .block b => ∃ s, (s, b) ∈ g.blocks.iter
    | .version v => ∃ s, (s, v) ∈ g.versions.iter := by
  unfold TypeGraph.hunterNodes
  cases node <;> simp

theorem exported_inode (h : Slotted g) {i : InodeId} : g.Exported (.inode i) t ↔
    ∃ inode, (g.getInode i = some inode ∧ inode.id = i) ∧ inode.ctime ≤ t := by
  unfold TypeGraph.Exported TypeGraph.getInode
  simp only [← record_iff h.inodes]
  constructor
  · rintro ⟨node, hnode, hid, hle⟩
    cases node with
    | inode inode =>
        obtain ⟨s, hs⟩ := mem_hunterNodes.mp hnode
        exact ⟨inode, ⟨s, hs, NodeId.inode.inj hid⟩, hle⟩
    | directory | capability | block | version => cases hid
  · rintro ⟨inode, ⟨s, hs, rfl⟩, hle⟩
    exact ⟨.inode inode, mem_hunterNodes.mpr ⟨s, hs⟩, rfl, hle⟩

theorem exported_directory (h : Slotted g) {d : DirId} : g.Exported (.directory d) t ↔
    ∃ dir, (g.getDir d = some dir ∧ dir.id = d) ∧ g.ctimeOf dir.inodeId ≤ t := by
  unfold TypeGraph.Exported TypeGraph.getDir
  simp only [← record_iff h.dirs]
  constructor
  · rintro ⟨node, hnode, hid, hle⟩
    cases node with
    | directory dir =>
        obtain ⟨s, hs⟩ := mem_hunterNodes.mp hnode
        exact ⟨dir, ⟨s, hs, NodeId.directory.inj hid⟩, hle⟩
    | inode | capability | block | version => cases hid
  · rintro ⟨dir, ⟨s, hs, rfl⟩, hle⟩
    exact ⟨.directory dir, mem_hunterNodes.mpr ⟨s, hs⟩, rfl, hle⟩

theorem exported_capability (h : Slotted g) {c : CapId} : g.Exported (.capability c) t ↔
    ∃ cap, (g.getCap c = some cap ∧ cap.id = c) ∧ cap.epoch ≤ t := by
  unfold TypeGraph.Exported TypeGraph.getCap
  simp only [← record_iff h.caps]
  constructor
  · rintro ⟨node, hnode, hid, hle⟩
    cases node with
    | capability cap =>
        obtain ⟨s, hs⟩ := mem_hunterNodes.mp hnode
        exact ⟨cap, ⟨s, hs, NodeId.capability.inj hid⟩, hle⟩
    | inode | directory | block | version => cases hid
  · rintro ⟨cap, ⟨s, hs, rfl⟩, hle⟩
    exact ⟨.capability cap, mem_hunterNodes.mpr ⟨s, hs⟩, rfl, hle⟩

theorem exported_block (h : Slotted g) {b : BlockId} : g.Exported (.block b) t ↔
    ∃ block, g.getBlock b = some block ∧ block.id = b := by
  unfold TypeGraph.Exported TypeGraph.getBlock
  simp only [← record_iff h.blocks]
  constructor
  · rintro ⟨node, hnode, hid, _⟩
    cases node with
    | block block =>
        obtain ⟨s, hs⟩ := mem_hunterNodes.mp hnode
        exact ⟨block, s, hs, NodeId.block.inj hid⟩
    | inode | directory | capability | version => cases hid
  · rintro ⟨block, s, hs, rfl⟩
    exact ⟨.block block, mem_hunterNodes.mpr ⟨s, hs⟩, rfl, Nat.zero_le t⟩

/-- There are no versions to export. -/
theorem exported_version (h : Slotted g) {v : VersionId} : ¬ g.Exported (.version v) t := by
  rintro ⟨node, hnode, hid, _⟩
  cases node with
  | version ver =>
      obtain ⟨s, hs⟩ := mem_hunterNodes.mp hnode
      rw [Arena.mem_iter, h.versions] at hs
      cases hs
  | inode | directory | capability | block => cases hid

/-- Attributes are not exported as nodes. -/
theorem exported_xattr {x : XAttrId} : ¬ g.Exported (.xattr x) t := by
  rintro ⟨node, _, hid, _⟩
  cases node <;> cases hid

/-- An edge is timely exactly when its endpoints are exported with timestamps up to its own. -/
theorem timely_iff (h : Slotted g) {edge : Edge} : edge.Timely g ↔
    g.Exported edge.srcNode (g.edgeTime edge) ∧ g.Exported edge.hunterTgt (g.edgeTime edge) := by
  cases edge with
  | contains e d i n =>
      change _ ↔ g.Exported (.directory d) (g.ctimeOf i) ∧ g.Exported (.inode i) (g.ctimeOf i)
      rw [h.exported_directory, h.exported_inode]
      constructor
      · rintro ⟨dir, inode, hdir, hinode, hle⟩
        have htime : g.ctimeOf i = inode.ctime := by rw [TypeGraph.ctimeOf, hinode.1]; rfl
        rw [htime]
        exact ⟨⟨dir, hdir, hle⟩, inode, hinode, le_rfl⟩
      · rintro ⟨⟨dir, hdir, hle⟩, inode, hinode, _⟩
        have htime : g.ctimeOf i = inode.ctime := by rw [TypeGraph.ctimeOf, hinode.1]; rfl
        exact ⟨dir, inode, hdir, hinode, htime ▸ hle⟩
  | grants e c i r =>
      change _ ↔ g.Exported (.capability c) (((g.getCap c).map Capability.epoch).getD 0) ∧
        g.Exported (.inode i) (((g.getCap c).map Capability.epoch).getD 0)
      rw [h.exported_capability, h.exported_inode]
      constructor
      · rintro ⟨cap, inode, hcap, hinode, hle⟩
        rw [hcap.1]
        exact ⟨⟨cap, ⟨rfl, hcap.2⟩, le_rfl⟩, inode, hinode, hle⟩
      · rintro ⟨⟨cap, hcap, _⟩, inode, hinode, hle⟩
        rw [hcap.1] at hle
        exact ⟨cap, inode, hcap, hinode, hle⟩
  | delegates e c p =>
      change _ ↔ g.Exported (.capability c) 0 ∧ g.Exported (.capability p) 0
      rw [h.exported_capability, h.exported_capability]
      constructor
      · rintro ⟨child, parent, hchild, hparent, hc, hp⟩
        exact ⟨⟨child, hchild, hc.le⟩, parent, hparent, hp.le⟩
      · rintro ⟨⟨child, hchild, hc⟩, parent, hparent, hp⟩
        exact ⟨child, parent, hchild, hparent, Nat.le_zero.mp hc, Nat.le_zero.mp hp⟩
  | supersedes e i j =>
      change _ ↔ g.Exported (.inode i) 0 ∧ g.Exported (.inode j) 0
      rw [h.exported_inode, h.exported_inode]
      constructor
      · rintro ⟨newer, older, hnewer, holder, hn, ho⟩
        exact ⟨⟨newer, hnewer, hn.le⟩, older, holder, ho.le⟩
      · rintro ⟨⟨newer, hnewer, hn⟩, older, holder, ho⟩
        exact ⟨newer, older, hnewer, holder, Nat.le_zero.mp hn, Nat.le_zero.mp ho⟩
  | pointsTo e i b o =>
      change _ ↔ g.Exported (.inode i) 0 ∧ g.Exported (.block b) 0
      rw [h.exported_inode, h.exported_block]
      constructor
      · rintro ⟨inode, block, hinode, hblock, hi⟩
        exact ⟨⟨inode, hinode, hi.le⟩, block, hblock⟩
      · rintro ⟨⟨inode, hinode, hi⟩, block, hblock⟩
        exact ⟨inode, block, hinode, hblock, Nat.le_zero.mp hi⟩
  | derivedFrom e v w => exact iff_of_false id fun hexported => h.exported_version hexported.1
  | hasXattr e i x => exact iff_of_false id fun hexported => exported_xattr hexported.2

/-- The exported nodes have different ids. -/
theorem hunterNodes_nodup (h : Slotted g) : (g.hunterNodes.map HunterNode.id).Nodup := by
  unfold TypeGraph.hunterNodes
  simp only [List.map_append, List.map_map, List.append_assoc]
  have hpool : ∀ {T : Type} {C : Nat} {a : Arena T C} {idOf : T → Nat} (node : T → HunterNode)
      (tag : Nat → NodeId), a.IdSlots idOf → Function.Injective tag → (∀ v, (node v).id = tag (idOf v)) →
      (a.iter.map (HunterNode.id ∘ fun entry => node entry.2)).Nodup := by
    intro T C a idOf node tag hslots htag hid
    have heq : (HunterNode.id ∘ fun entry : Nat × T => node entry.2) = tag ∘ fun entry => idOf entry.2 :=
      funext fun entry => hid entry.2
    rw [heq, ← List.map_map]
    exact hslots.nodup.map htag
  have hversions : g.versions.IdSlots Version.id := ⟨fun {s v} hv => by simp [h.versions s] at hv⟩
  refine (hpool .inode .inode h.inodes (fun _ _ => NodeId.inode.inj) fun _ => rfl).append
    ((hpool .directory .directory h.dirs (fun _ _ => NodeId.directory.inj) fun _ => rfl).append
      ((hpool .capability .capability h.caps (fun _ _ => NodeId.capability.inj) fun _ => rfl).append
        ((hpool .block .block h.blocks (fun _ _ => NodeId.block.inj) fun _ => rfl).append
          (hpool .version .version hversions (fun _ _ => NodeId.version.inj) fun _ => rfl) ?_) ?_) ?_) ?_
  all_goals
    intro n hn hn'
    simp only [List.mem_append, List.mem_map, Function.comp_apply] at hn hn'
    obtain ⟨_, _, rfl⟩ := hn
    simp [HunterNode.id] at hn'

/-- A node that is exported is added once. -/
theorem count_addedNames (h : Slotted g) {n : NodeId} (hn : g.Exported n t) :
    (addedNames g.hunterEvents).count n.hunterName = 1 := by
  have hperm : (addedNames g.hunterEvents).Perm (addedNames g.collectedEvents) :=
    (List.mergeSort_perm _ _).filterMap _
  have hnames : addedNames g.collectedEvents = (g.hunterNodes.map HunterNode.id).map NodeId.hunterName := by
    unfold addedNames TypeGraph.collectedEvents
    rw [List.filterMap_append, List.filterMap_map, List.filterMap_map, List.map_map]
    simp [Function.comp_def]
  obtain ⟨node, hnode, rfl, _⟩ := hn
  rw [hperm.count_eq, hnames]
  exact List.count_eq_one_of_mem (h.hunterNodes_nodup.map NodeId.hunterName_injective)
    (List.mem_map_of_mem (List.mem_map_of_mem hnode))

/-- The export of a graph replays exactly when every stored edge is timely. -/
theorem replays_iff (h : Slotted g) : g.Replays ↔ ∀ {edge}, g.HasEdge edge → edge.Timely g := by
  constructor
  · intro hreplays edge hedge
    exact h.timely_iff.mpr (TypeGraph.known_iff.mp hreplays.known hedge)
  · intro htimely
    refine ⟨pairwise_sortByKey Prod.fst _, ?_, ?_⟩
    · exact TypeGraph.known_iff.mpr fun hedge => h.timely_iff.mp (htimely hedge)
    · rintro edge node hedge (rfl | rfl) _
      · exact h.count_addedNames (h.timely_iff.mp (htimely hedge)).1
      · exact h.count_addedNames (h.timely_iff.mp (htimely hedge)).2

end Slotted

/-! ### Runs under a clock -/

/-- The graphs reached under a clock that never goes back, each with a bound on the readings so far. -/
inductive ClockRun : Timestamp → TypeGraph → Prop where
  | new (t : Timestamp) : ClockRun t (.new t)
  | call {t t' : Timestamp} {g : TypeGraph} (now : Nat → Timestamp) (op : Op) : ClockRun t g → Monotone now →
      t ≤ now 0 → (∀ k, now k ≤ t') → ClockRun t' (op.apply now g).2
  | setCapCtx {t : Timestamp} {g : TypeGraph} (ctx : CapContext) : ClockRun t g → ClockRun t (g.setCapCtx ctx)
  | enableProvLog {t : Timestamp} {g : TypeGraph} : ClockRun t g → ClockRun t g.enableProvLog
  | disableProvLog {t : Timestamp} {g : TypeGraph} : ClockRun t g → ClockRun t g.disableProvLog

theorem ClockRun.run {t : Timestamp} {g : TypeGraph} (h : ClockRun t g) : Run (fun _ _ _ => True) g := by
  induction h with
  | new t => exact .new t
  | call now op _ _ _ _ ih => exact .call now op ih trivial
  | setCapCtx ctx _ ih => exact .setCapCtx ctx ih
  | enableProvLog _ ih => exact .enableProvLog ih
  | disableProvLog _ ih => exact .disableProvLog ih

/-- The export of a graph that was reached under a clock that never goes back replays exactly when every
    stored edge is timely. -/
theorem replays_iff_timely {t : Timestamp} {g : TypeGraph} (hrun : ClockRun t g) :
    g.Replays ↔ ∀ {edge}, g.HasEdge edge → edge.Timely g := hrun.run.slotted.replays_iff

/-- A file with two names, the second one given later. -/
def linkedLater : TypeGraph :=
  ((Op.link 1 "b" 2).apply (fun _ => 7)
    ((Op.createFile 1 "a" 0 0 ⟨0o644⟩).apply (fun _ => 5) (.new 0)).2).2

theorem replays_iff_timely_linkedLater : linkedLater.Replays := by
  have hrun : ClockRun 7 linkedLater :=
    .call (t := 5) _ _ (.call (t := 0) _ _ (.new 0) monotone_const (by decide) fun _ => le_rfl) monotone_const
      (by decide) fun _ => le_rfl
  refine (replays_iff_timely hrun).mpr ?_
  rintro edge ⟨s, hs⟩
  have hedges : linkedLater.edges.iter =
      [(1, .contains 1 1 1 "."), (2, .contains 2 1 2 "a"), (3, .contains 3 1 2 "b")] := by decide
  have hmem := Arena.mem_iter.mpr hs
  rw [hedges] at hmem
  simp only [List.mem_cons, Prod.mk.injEq, List.not_mem_nil, or_false] at hmem
  rcases hmem with ⟨_, rfl⟩ | ⟨_, rfl⟩ | ⟨_, rfl⟩ <;>
    exact ⟨_, _, ⟨rfl, rfl⟩, ⟨rfl, rfl⟩, by decide⟩

/-- A directory made after its parent: its ".." has the timestamp of the parent and comes before the directory
    is added. -/
theorem replay_misses : ¬ ∀ t g, ClockRun t g → g.Replays := by
  intro hall
  have hrun : ClockRun 1 ((Op.mkdir 1 "d" 0 0 ⟨0o755⟩).apply (fun _ => 1) (.new 0)).2 :=
    .call (t := 0) _ _ (.new 0) monotone_const (by decide) fun _ => le_rfl
  have htimely : (Edge.contains 4 2 1 "..").Timely _ := hrun.run.slotted.replays_iff.mp (hall _ _ hrun) ⟨4, rfl⟩
  obtain ⟨dir, inode, ⟨hdir, _⟩, ⟨hinode, _⟩, hle⟩ := htimely
  cases hdir
  cases hinode
  exact absurd hle (by decide)

end SotFs
