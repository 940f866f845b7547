/-
Module: SotFs.Proofs.Invariant
Layer: Proofs
Purpose: The invariant of the type graph. It has seven parts: records are stored under their own ids and
  no id is ahead of its counter; the two edge sets and the name index reflect the `contains` edges; the
  entry-set keys and the reverse directory index reflect the directories; the namespace is well shaped;
  link counts count names; and blocks, attributes and grants each belong to exactly one edge. The parts
  are stated on what the arenas hold seen through a projection, so an update that a part does not look at
  leaves it as it is.
Trusted boundary: none
Main exports: Arena.view, Numbered, TypeGraph.entries, TypeGraph.shape, linksTo, NamesOk, SideOk, Indexed,
  Inv
-/
import SotFs.Foundation.TableIndex
import SotFs.Core.Runs
import SotFs.Proofs.Shape

namespace SotFs

open Std (ExtTreeMap ExtTreeSet)
open Relation Foundation

/-! ### Arenas seen through a projection -/

/-- What an arena holds, slot by slot, seen through `f`. -/
def Arena.view {T β : Type} {CAPACITY : Nat} (a : Arena T CAPACITY) (f : T → Option β) :
    Nat → Option β := fun s => (a.data s).bind f

section View

variable {T β : Type} {CAPACITY : Nat} {a b : Arena T CAPACITY} {f : T → Option β}

theorem Arena.view_eq_some {s : Nat} {w : β} :
    a.view f s = some w ↔ ∃ v, a.data s = some v ∧ f v = some w := by
  rw [Arena.view, Option.bind_eq_some_iff]

/-- An update of one slot is an update of the view. -/
theorem Arena.view_update {s : Nat} {v : Option T} (h : b.data = Function.update a.data s v) :
    b.view f = Function.update (a.view f) s (v.bind f) := by
  funext x
  rw [Arena.view, h]
  by_cases hx : x = s
  · subst hx
    simp
  · simp [Function.update_of_ne hx, Arena.view]

/-- An update that shows nothing new is not seen. -/
theorem Arena.view_update_eq {s : Nat} {v : Option T} (h : b.data = Function.update a.data s v)
    (hv : v.bind f = (a.data s).bind f) : b.view f = a.view f := by
  rw [Arena.view_update h, hv]
  exact Function.update_eq_self_iff.mpr rfl

end View

/-! ### Ids and slots -/

theorem idToArena_of_lt {id : Nat} (h : id < 2 ^ 32) : idToArena id = id := Nat.mod_eq_of_lt h

/-- The records of an arena are stored under their own ids, and `next` is an id that was never issued and
    is in range or the first one out of it. -/
structure Numbered {T : Type} {CAPACITY : Nat} (a : Arena T CAPACITY) (idOf : T → Nat) (next : Nat) :
    Prop where
  id_eq : ∀ {s v}, a.data s = some v → idOf v = s
  lt_next : ∀ {s v}, a.data s = some v → s < next
  next_le : next ≤ CAPACITY
  capacity_lt : CAPACITY < 2 ^ 32

namespace Numbered

variable {T : Type} {CAPACITY : Nat} {a : Arena T CAPACITY} {idOf : T → Nat} {next : Nat}

theorem empty (hcap : CAPACITY < 2 ^ 32) (hnext : next ≤ CAPACITY) :
    Numbered (.new : Arena T CAPACITY) idOf next where
  id_eq h := by simp at h
  lt_next h := by simp at h
  next_le := hnext
  capacity_lt := hcap

/-- The next id is vacant. -/
theorem fresh (h : Numbered a idOf next) {s : Nat} (hs : next ≤ s) : a.data s = none := by
  cases hd : a.data s with
  | none => rfl
  | some v =>
      have hlt := h.lt_next hd
      omega

theorem slot_next (h : Numbered a idOf next) : idToArena next = next :=
  idToArena_of_lt (lt_of_le_of_lt h.next_le h.capacity_lt)

/-- A stored record sits at the slot of its id. -/
theorem slot (h : Numbered a idOf next) {s : Nat} {v : T} (hv : a.data s = some v) :
    idToArena s = s :=
  idToArena_of_lt (lt_trans (lt_of_lt_of_le (h.lt_next hv) h.next_le) h.capacity_lt)

/-- Looking up the id of a record that carries it: the id is the slot. -/
theorem eq_of_id (h : Numbered a idOf next) {id : Nat} {v : T} (hv : a.data (idToArena id) = some v)
    (hid : idOf v = id) : idToArena id = id := (h.id_eq hv).symm.trans hid

/-- Inserting the next record writes its slot. -/
theorem insert_data (h : Numbered a idOf next) (hlt : next < CAPACITY) (v : T) :
    (a.insertAt (idToArena next) v).2.data = Function.update a.data next (some v) := by
  rw [h.slot_next]
  exact Arena.data_insertAt _ hlt (h.fresh le_rfl)

theorem insert (h : Numbered a idOf next) (hlt : next < CAPACITY) {v : T} (hv : idOf v = next) :
    Numbered (a.insertAt (idToArena next) v).2 idOf (next + 1) where
  id_eq := by
    intro s w hw
    rw [h.insert_data hlt] at hw
    by_cases hs : s = next
    · subst hs
      rw [Function.update_self] at hw
      cases hw
      exact hv
    · rw [Function.update_of_ne hs] at hw
      exact h.id_eq hw
  lt_next := by
    intro s w hw
    rw [h.insert_data hlt] at hw
    by_cases hs : s = next
    · omega
    · rw [Function.update_of_ne hs] at hw
      exact lt_trans (h.lt_next hw) (Nat.lt_succ_self _)
  next_le := hlt
  capacity_lt := h.capacity_lt

theorem remove (h : Numbered a idOf next) (s : Nat) : Numbered (a.remove s).2 idOf next where
  id_eq := by
    intro t w hw
    rw [Arena.data_remove] at hw
    by_cases ht : t = s
    · subst ht
      simp at hw
    · rw [Function.update_of_ne ht] at hw
      exact h.id_eq hw
  lt_next := by
    intro t w hw
    rw [Arena.data_remove] at hw
    by_cases ht : t = s
    · subst ht
      simp at hw
    · rw [Function.update_of_ne ht] at hw
      exact h.lt_next hw
  next_le := h.next_le
  capacity_lt := h.capacity_lt

theorem modify (h : Numbered a idOf next) (s : Nat) {f : T → T} (hf : ∀ v, idOf (f v) = idOf v) :
    Numbered (a.modify s f) idOf next where
  id_eq := by
    intro t w hw
    rw [Arena.data_modify] at hw
    by_cases ht : t = s
    · subst ht
      rw [Function.update_self, Option.map_eq_some_iff] at hw
      obtain ⟨v, hv, rfl⟩ := hw
      rw [hf]
      exact h.id_eq hv
    · rw [Function.update_of_ne ht] at hw
      exact h.id_eq hw
  lt_next := by
    intro t w hw
    rw [Arena.data_modify] at hw
    by_cases ht : t = s
    · subst ht
      rw [Function.update_self, Option.map_eq_some_iff] at hw
      obtain ⟨v, hv, rfl⟩ := hw
      exact h.lt_next hv
    · rw [Function.update_of_ne ht] at hw
      exact h.lt_next hw
  next_le := h.next_le
  capacity_lt := h.capacity_lt

end Numbered

/-! ### The projections of the edge pool -/

namespace Edge

/-- What a `contains` edge says: directory, target and name. -/
def entry : Edge → Option (DirId × InodeId × String)
  | .contains _ src tgt name => some (src, tgt, name)
  | _ => none

/-- What a `pointsTo` edge says. -/
def pointer : Edge → Option (InodeId × BlockId × Nat)
  | .pointsTo _ src tgt offset => some (src, tgt, offset)
  | _ => none

/-- What a `grants` edge says. -/
def grant : Edge → Option (CapId × InodeId × Rights)
  | .grants _ src tgt rights => some (src, tgt, rights)
  | _ => none

/-- What a `hasXattr` edge says. -/
def attachment : Edge → Option (InodeId × XAttrId)
  | .hasXattr _ src tgt => some (src, tgt)
  | _ => none

/-- Whether an edge is of a kind that no operation makes. -/
def other : Edge → Option Unit
  | .delegates .. | .derivedFrom .. | .supersedes .. => some ()
  | _ => none

end Edge

namespace TypeGraph

/-- The `contains` edges: directory, target and name of every edge id. -/
def entries (g : TypeGraph) : EdgeId → Option (DirId × InodeId × String) := g.edges.view Edge.entry

/-- The inode of every directory. -/
def dirInode (g : TypeGraph) : DirId → Option InodeId := g.dirs.view fun d => some d.inodeId

/-- The kind of every inode slot. -/
def kinds (g : TypeGraph) : Nat → Option VnodeType := g.inodes.view fun i => some i.vtype

/-- The namespace the graph stands for. -/
def shape (g : TypeGraph) : Shape where
  edge := g.entries
  dirInode := g.dirInode
  kind := g.kinds
  rootDir := g.rootDir
  rootInode := g.rootInode

end TypeGraph

/-- Whether an entry counts as a link to an inode slot: every name but "..". -/
def CountsFor (s : Nat) (w : DirId × InodeId × String) : Prop := idToArena w.2.1 = s ∧ w.2.2 ≠ ".."

instance (s : Nat) (w : DirId × InodeId × String) : Decidable (CountsFor s w) :=
  inferInstanceAs (Decidable (_ ∧ _))

/-- The edges that count as links to an inode slot. -/
def linksTo (entries : EdgeId → Option (DirId × InodeId × String)) (s : Nat) : Finset EdgeId :=
  (Finset.range EDGE_CAPACITY).filter fun e => (entries e).any fun w => CountsFor s w

/-! ### The indexes of the names -/

/-- The two entry sets and the name index record exactly the entries. -/
structure NamesOk (entries : EdgeId → Option (DirId × InodeId × String))
    (dirContains : SetIndex DirId EdgeId) (inodeIncomingContains : SetIndex InodeId EdgeId)
    (dirNameIdx : NameIndex) : Prop where
  out : Indexes dirContains entries (fun w => w.1)
  incoming : Indexes inodeIncomingContains entries (fun w => w.2.1)
  names : UniqueIndex dirNameIdx entries (fun w => (w.1, w.2.2))

namespace NamesOk

variable {entries : EdgeId → Option (DirId × InodeId × String)} {dirContains : SetIndex DirId EdgeId}
  {inodeIncomingContains : SetIndex InodeId EdgeId} {dirNameIdx : NameIndex}

/-- A new entry extends all three. -/
theorem insert (h : NamesOk entries dirContains inodeIncomingContains dirNameIdx) {e d t n}
    (hvac : entries e = none) (hfree : ∀ x t', entries x ≠ some (d, t', n)) :
    NamesOk (Function.update entries e (some (d, t, n))) (SetIndex.add dirContains d e)
      (SetIndex.add inodeIncomingContains t e) (dirNameIdx.insert (d, n) e) where
  out := h.out.insert hvac (d, t, n)
  incoming := h.incoming.insert hvac (d, t, n)
  names := by
    refine h.names.insert hvac (v := (d, t, n)) ?_
    rintro x ⟨d', t', n'⟩ hx hkey
    cases hkey
    exact hfree x t' hx

/-- A removed entry leaves all three. -/
theorem remove (h : NamesOk entries dirContains inodeIncomingContains dirNameIdx) {e d t n}
    (he : entries e = some (d, t, n)) :
    NamesOk (Function.update entries e none) (SetIndex.drop dirContains d e)
      (SetIndex.drop inodeIncomingContains t e) (dirNameIdx.erase (d, n)) where
  out := h.out.remove he
  incoming := h.incoming.remove he
  names := h.names.remove he

/-- An entry that takes another free name. -/
theorem rename (h : NamesOk entries dirContains inodeIncomingContains dirNameIdx) {e d t n n'}
    (he : entries e = some (d, t, n)) (hfree : ∀ x t', entries x ≠ some (d, t', n')) :
    NamesOk (Function.update entries e (some (d, t, n'))) dirContains inodeIncomingContains
      ((dirNameIdx.erase (d, n)).insert (d, n') e) where
  out := h.out.replace he rfl
  incoming := h.incoming.replace he rfl
  names := by
    refine h.names.rekey (d, t, n') he ?_
    rintro x ⟨d', t', m⟩ hx hkey
    cases hkey
    exact hfree x t' hx

/-- An entry that is pointed at another inode. -/
theorem retarget (h : NamesOk entries dirContains inodeIncomingContains dirNameIdx) {e d t n t'}
    (he : entries e = some (d, t, n)) :
    NamesOk (Function.update entries e (some (d, t', n))) dirContains
      (SetIndex.add (SetIndex.drop inodeIncomingContains t e) t' e) dirNameIdx where
  out := h.out.replace he rfl
  incoming := h.incoming.rekey he (d, t', n)
  names := h.names.replace he rfl

end NamesOk

/-! ### Blocks, attributes and grants -/

/-- Every block is pointed to by exactly one edge and says so. -/
structure BlocksOk (pointers : EdgeId → Option (InodeId × BlockId × Nat))
    (blocks : BlockId → Option Block) : Prop where
  live : ∀ {e i b o}, pointers e = some (i, b, o) → ∃ blk, blocks b = some blk
  unique : ∀ {e e' i i' b o o'}, pointers e = some (i, b, o) → pointers e' = some (i', b, o') → e = e'
  used : ∀ {b blk}, blocks b = some blk → blk.refcount = 1 ∧ ∃ e i o, pointers e = some (i, b, o)

/-- Every attribute is attached by exactly one edge, and the attribute sets list the attached ones. -/
structure XattrsOk (attachments : EdgeId → Option (InodeId × XAttrId)) (xattrs : ExtTreeMap XAttrId XAttr)
    (inodeXattrs : SetIndex InodeId XAttrId) (nextXattr : Nat) : Prop where
  owned : ∀ {i x}, x ∈ SetIndex.members inodeXattrs i ↔ ∃ e, attachments e = some (i, x)
  unique : ∀ {e e' i i' x}, attachments e = some (i, x) → attachments e' = some (i', x) → e = e'
  live : ∀ {x}, x ∈ xattrs ↔ ∃ e i, attachments e = some (i, x)
  lt_next : ∀ {x}, x ∈ xattrs → x < nextXattr

/-- Every grant comes from a live capability, a different one for each. -/
structure GrantsOk (grants : EdgeId → Option (CapId × InodeId × Rights))
    (caps : CapId → Option Capability) (capGrants : ExtTreeMap CapId EdgeId) : Prop where
  index : UniqueIndex capGrants grants (fun w => w.1)
  live : ∀ {e c i r}, grants e = some (c, i, r) → ∃ cap, caps c = some cap
  used : ∀ {c cap}, caps c = some cap → ∃ e i r, grants e = some (c, i, r)

/-- The part of the invariant about edges other than names. -/
structure SideOk (edges : Arena Edge EDGE_CAPACITY) (blocks : BlockId → Option Block)
    (caps : CapId → Option Capability) (inodePointsTo : SetIndex InodeId EdgeId)
    (capGrants : ExtTreeMap CapId EdgeId) (xattrs : ExtTreeMap XAttrId XAttr)
    (inodeXattrs : SetIndex InodeId XAttrId) (nextXattr : Nat) : Prop where
  pointers : Indexes inodePointsTo (edges.view Edge.pointer) (fun w => w.1)
  blocks : BlocksOk (edges.view Edge.pointer) blocks
  xattrs : XattrsOk (edges.view Edge.attachment) xattrs inodeXattrs nextXattr
  grants : GrantsOk (edges.view Edge.grant) caps capGrants
  others : ∀ e, edges.view Edge.other e = none

/-- The part of the invariant that reading the entries of a directory rests on. -/
structure Indexed (g : TypeGraph) : Prop where
  edgeIds : Numbered g.edges Edge.id g.nextEdge
  index : NamesOk g.entries g.dirContains g.inodeIncomingContains g.dirNameIdx

/-- The invariant of the type graph. -/
structure Inv (g : TypeGraph) : Prop extends Indexed g where
  inodeIds : Numbered g.inodes Inode.id g.nextInode
  dirIds : Numbered g.dirs Directory.id g.nextDir
  capIds : Numbered g.caps Capability.id g.nextCap
  blockIds : Numbered g.blocks Block.id g.nextBlock
  dirKeys : ∀ d, d ∈ g.dirContains ↔ ∃ i, g.dirInode d = some i
  dirIdx : UniqueIndex g.dirForInodeIdx g.dirInode (fun i => i)
  shape : g.shape.Ok
  links : ∀ {s i}, g.inodes.data s = some i → i.linkCount = (linksTo g.entries s).card
  side : SideOk g.edges g.blocks.data g.caps.data g.inodePointsTo g.capGrants g.xattrs g.inodeXattrs
    g.nextXattr
  roots : g.rootDir = 1 ∧ g.rootInode = 1
  noDelegation : g.capParent = ∅

/-! ### Readings of the invariant -/

/-- The search for an element that is the only one of its kind finds it. -/
theorem find?_eq_some_iff_of_unique {α : Type} {p : α → Bool} {l : List α} {x : α}
    (huniq : ∀ y ∈ l, ∀ z ∈ l, p y = true → p z = true → y = z) :
    l.find? p = some x ↔ x ∈ l ∧ p x = true := by
  constructor
  · intro h
    exact ⟨List.mem_of_find?_eq_some h, List.find?_some h⟩
  · rintro ⟨hx, hp⟩
    cases hf : l.find? p with
    | none => exact absurd hp (by simpa using List.find?_eq_none.mp hf x hx)
    | some y => rw [huniq y (List.mem_of_find?_eq_some hf) x hx (List.find?_some hf) hp]

/-- The recorded entries of a directory are listed once each. -/
theorem TypeGraph.dirEntries_nodup (g : TypeGraph) (d : DirId) : (g.dirEntries d).Nodup := by
  refine (SetIndex.nodup_toList (SetIndex.members g.dirContains d)).filterMap ?_
  rintro x y ⟨e, t, n⟩ hx hy
  split at hx
  · cases hx
    split at hy
    · cases hy
      rfl
    · cases hy
  · cases hx

namespace Indexed

variable {g : TypeGraph}

/-- An entry is a `contains` edge that carries its own id. -/
theorem entries_iff (h : Indexed g) {e d t n} :
    g.entries e = some (d, t, n) ↔ g.edges.data e = some (.contains e d t n) := by
  rw [TypeGraph.entries, Arena.view_eq_some]
  constructor
  · rintro ⟨v, hv, hentry⟩
    cases v with
    | contains id src tgt name =>
        simp only [Edge.entry, Option.some.injEq, Prod.mk.injEq] at hentry
        obtain ⟨rfl, rfl, rfl⟩ := hentry
        have hid : id = e := h.edgeIds.id_eq hv
        rw [hv, hid]
    | _ => simp [Edge.entry] at hentry
  · intro hv
    exact ⟨_, hv, rfl⟩

/-- The edge that an entry's id leads to. -/
theorem getEdge_of_entry (h : Indexed g) {e d t n} (he : g.entries e = some (d, t, n)) :
    g.getEdge e = some (.contains e d t n) := by
  have hdata := h.entries_iff.mp he
  rw [TypeGraph.getEdge, Arena.get_eq_data, h.edgeIds.slot hdata, hdata]

/-- The recorded entries of a directory are its entries. -/
theorem mem_dirEntries (h : Indexed g) {d : DirId} {e t n} :
    (e, t, n) ∈ g.dirEntries d ↔ g.entries e = some (d, t, n) := by
  unfold TypeGraph.dirEntries
  rw [List.mem_filterMap]
  constructor
  · rintro ⟨x, hx, hsome⟩
    rw [ExtTreeSet.mem_toList] at hx
    obtain ⟨⟨d', t', n'⟩, hv, hkey⟩ := (h.index.out d x).mp hx
    cases hkey
    simp only [h.getEdge_of_entry hv, Option.some.injEq, Prod.mk.injEq] at hsome
    obtain ⟨rfl, rfl, rfl⟩ := hsome
    exact hv
  · intro he
    refine ⟨e, ExtTreeSet.mem_toList.mpr (h.index.out.mem he), ?_⟩
    simp only [h.getEdge_of_entry he]

/-- Two entries of one directory with one name are the same. -/
theorem names (h : Indexed g) {e e' d t t' n} (he : g.entries e = some (d, t, n))
    (he' : g.entries e' = some (d, t', n)) : e = e' := h.index.names.inj he he' rfl

/-- The name of an entry determines it within its directory. -/
theorem dirEntries_unique (h : Indexed g) {d : DirId} :
    ∀ x ∈ g.dirEntries d, ∀ y ∈ g.dirEntries d, x.2.2 = y.2.2 → x = y := by
  rintro ⟨e, t, n⟩ hx ⟨e', t', n'⟩ hy heq
  cases heq
  rw [h.mem_dirEntries] at hx hy
  have hee : e = e' := h.names hx hy
  subst hee
  rw [hx] at hy
  cases hy
  rfl

/-- Searching the entries of a directory for a name. -/
theorem find_name (h : Indexed g) {d : DirId} {name : String} {x : EdgeId × InodeId × String} :
    ((g.dirEntries d).find? fun entry => entry.2.2 = name) = some x ↔
      x.2.2 = name ∧ g.entries x.1 = some (d, x.2.1, name) := by
  rw [find?_eq_some_iff_of_unique]
  · obtain ⟨e, t, n⟩ := x
    rw [h.mem_dirEntries]
    simp only [decide_eq_true_eq]
    constructor
    · rintro ⟨he, rfl⟩
      exact ⟨rfl, he⟩
    · rintro ⟨rfl, he⟩
      exact ⟨he, rfl⟩
  · intro y hy z hz hpy hpz
    refine h.dirEntries_unique y hy z hz ?_
    rw [of_decide_eq_true hpy, of_decide_eq_true hpz]

/-- Searching the entries of a directory for a name and a target. -/
theorem findEntry_iff (h : Indexed g) {d : DirId} {i : InodeId} {name : String} {e : EdgeId} :
    g.findEntry d i name = some e ↔ g.entries e = some (d, i, name) := by
  unfold TypeGraph.findEntry
  rw [Option.map_eq_some_iff]
  have huniq : ∀ y ∈ g.dirEntries d, ∀ z ∈ g.dirEntries d,
      decide (y.2.1 = i ∧ y.2.2 = name) = true → decide (z.2.1 = i ∧ z.2.2 = name) = true → y = z := by
    intro y hy z hz hpy hpz
    refine h.dirEntries_unique y hy z hz ?_
    rw [(of_decide_eq_true hpy).2, (of_decide_eq_true hpz).2]
  constructor
  · rintro ⟨⟨e', t, n⟩, hfind, rfl⟩
    obtain ⟨hmem, hp⟩ := (find?_eq_some_iff_of_unique huniq).mp hfind
    obtain ⟨rfl, rfl⟩ := of_decide_eq_true hp
    exact h.mem_dirEntries.mp hmem
  · intro he
    refine ⟨(e, i, name), (find?_eq_some_iff_of_unique huniq).mpr ⟨h.mem_dirEntries.mpr he, ?_⟩, rfl⟩
    simp

end Indexed

namespace Inv

variable {g : TypeGraph}

/-- A live directory is one that has an inode. -/
theorem liveDir_iff (h : Inv g) {d : DirId} : g.LiveDir d ↔ ∃ i, g.dirInode d = some i := by
  unfold TypeGraph.LiveDir TypeGraph.getDir TypeGraph.dirInode
  constructor
  · rintro ⟨dir, hdir, hid⟩
    rw [Arena.get_eq_data] at hdir
    have hslot : idToArena d = d := h.dirIds.eq_of_id hdir hid
    rw [hslot] at hdir
    exact ⟨dir.inodeId, Arena.view_eq_some.mpr ⟨dir, hdir, rfl⟩⟩
  · rintro ⟨i, hi⟩
    obtain ⟨dir, hdir, _⟩ := Arena.view_eq_some.mp hi
    refine ⟨dir, ?_, h.dirIds.id_eq hdir⟩
    rw [Arena.get_eq_data, h.dirIds.slot hdir, hdir]

/-- The record of a live directory. -/
theorem getDir_eq (h : Inv g) {d : DirId} {i : InodeId} (hd : g.dirInode d = some i) :
    g.getDir d = some ⟨d, i⟩ := by
  obtain ⟨dir, hdir, hi⟩ := Arena.view_eq_some.mp hd
  have hid : dir.id = d := h.dirIds.id_eq hdir
  have hinode : dir.inodeId = i := Option.some.inj hi
  rw [TypeGraph.getDir, Arena.get_eq_data, h.dirIds.slot hdir, hdir, ← hid, ← hinode]

theorem containsDir_eq (h : Inv g) {d : DirId} {i : InodeId} (hd : g.dirInode d = some i) :
    g.containsDir d = true := by
  have hget := h.getDir_eq hd
  rw [TypeGraph.getDir, Arena.get_eq_data] at hget
  rw [TypeGraph.containsDir, Arena.contains_eq_isSome, hget]
  rfl

/-- The name index is never empty: the root has its ".". -/
theorem dirNameIdx_isEmpty (h : Inv g) : g.dirNameIdx.isEmpty = false := by
  obtain ⟨e, he⟩ := h.shape.dot h.shape.root
  have hget := h.index.names.get he
  by_contra hempty
  rw [Bool.not_eq_false, ExtTreeMap.isEmpty_iff] at hempty
  rw [hempty] at hget
  simp at hget

/-- Lookup finds the entry of a name. -/
theorem lookupName_iff (h : Inv g) {d : DirId} {n : String} {v : Edge} :
    g.lookupName d n = some v ↔ ∃ e t, v = .contains e d t n ∧ g.entries e = some (d, t, n) := by
  unfold TypeGraph.lookupName
  rw [h.dirNameIdx_isEmpty]
  simp only [Bool.not_false, if_true]
  cases hidx : g.dirNameIdx[(d, n)]? with
  | none =>
      have hfree := h.index.names.get_eq_none.mp hidx
      constructor
      · intro hv
        cases hv
      · rintro ⟨e, t, _, he⟩
        exact absurd rfl (hfree e _ he)
  | some e =>
      obtain ⟨⟨d', t, n'⟩, he, hkey⟩ := (h.index.names _ _).mp hidx
      cases hkey
      simp only [h.getEdge_of_entry he, Option.some.injEq]
      constructor
      · rintro rfl
        exact ⟨e, t, rfl, he⟩
      · rintro ⟨e', t', rfl, he'⟩
        have hee : e = e' := h.shape.names he he'
        subst hee
        rw [he] at he'
        cases he'
        rfl

/-- A name resolves to the target of its entry. -/
theorem resolveName_iff (h : Inv g) {d : DirId} {n : String} {t : InodeId} :
    g.resolveName d n = some t ↔ ∃ e, g.entries e = some (d, t, n) := by
  unfold TypeGraph.resolveName
  cases hl : g.lookupName d n with
  | none =>
      constructor
      · intro ht
        cases ht
      · rintro ⟨e, he⟩
        have := h.lookupName_iff.mpr ⟨e, t, rfl, he⟩
        rw [hl] at this
        cases this
  | some v =>
      obtain ⟨e, t', rfl, he⟩ := h.lookupName_iff.mp hl
      simp only [Option.some.injEq]
      constructor
      · rintro rfl
        exact ⟨e, he⟩
      · rintro ⟨e', he'⟩
        have hee : e = e' := h.shape.names he he'
        subst hee
        rw [he] at he'
        cases he'
        rfl

/-- A name that does not resolve has no entry. -/
theorem resolveName_eq_none_iff (h : Inv g) {d : DirId} {n : String} :
    g.resolveName d n = none ↔ ∀ e t, g.entries e ≠ some (d, t, n) := by
  rw [Option.eq_none_iff_forall_ne_some]
  constructor
  · intro hnone e t he
    exact hnone t (h.resolveName_iff.mpr ⟨e, he⟩)
  · intro hfree t ht
    obtain ⟨e, he⟩ := h.resolveName_iff.mp ht
    exact hfree e t he

/-- The reverse index leads to the directory of an inode. -/
theorem dirForInode_iff (h : Inv g) {i : InodeId} {d : DirId} :
    g.dirForInode i = some d ↔ g.dirInode d = some i := by
  rw [TypeGraph.dirForInode, h.dirIdx i d]
  simp

/-- The parent of a directory is where ".." leads. -/
theorem parentDir_iff (h : Inv g) {d p : DirId} :
    g.parentDir d = some p ↔ ∃ e t, g.entries e = some (d, t, "..") ∧ g.dirInode p = some t := by
  unfold TypeGraph.parentDir
  cases hr : g.resolveName d ".." with
  | none =>
      have hnone := h.resolveName_eq_none_iff.mp hr
      constructor
      · intro hp
        cases hp
      · rintro ⟨e, t, he, _⟩
        exact absurd he (hnone e t)
  | some t =>
      obtain ⟨e, he⟩ := h.resolveName_iff.mp hr
      simp only [h.dirForInode_iff]
      constructor
      · intro hp
        exact ⟨e, t, he, hp⟩
      · rintro ⟨e', t', he', hp⟩
        have hee : e' = e := h.shape.names he' he
        subst hee
        rw [he] at he'
        cases he'
        exact hp

/-- The kind of the inode that an id leads to. -/
theorem getInode_kind {id : InodeId} {i : Inode} (hi : g.getInode id = some i) :
    g.kinds (idToArena id) = some i.vtype := by
  rw [TypeGraph.getInode, Arena.get_eq_data] at hi
  exact Arena.view_eq_some.mpr ⟨i, hi, rfl⟩

/-- Every entry leads to a live inode. -/
theorem getInode_of_entry (h : Inv g) {e d t n} (he : g.entries e = some (d, t, n)) :
    ∃ i, g.getInode t = some i := by
  obtain ⟨k, hk, _⟩ := h.shape.tgt_live he
  obtain ⟨i, hi, _⟩ := Arena.view_eq_some.mp hk
  exact ⟨i, by rw [TypeGraph.getInode, Arena.get_eq_data, hi]⟩

/-- The directory inode of a live directory. -/
theorem getInode_of_dir (h : Inv g) {d i} (hd : g.dirInode d = some i) :
    ∃ inode, g.getInode i = some inode ∧ inode.vtype = .directory := by
  obtain ⟨inode, hi, hkind⟩ := Arena.view_eq_some.mp (h.shape.dir_kind hd)
  refine ⟨inode, ?_, Option.some.inj hkind⟩
  rw [TypeGraph.getInode, Arena.get_eq_data, h.shape.dir_slot hd, hi]

end Inv

end SotFs
