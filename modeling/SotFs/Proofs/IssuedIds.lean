/-
Module: SotFs.Proofs.IssuedIds
Layer: Proofs
Purpose: The ids that one call issues. Whatever a call returns as new, and every edge and capability it
  inserts, has an id between the counter from before the call and the counter from after it, and no two of
  them are equal: an edge that a call leaves at an older id is not of the kind it inserts.
Trusted boundary: none
Main exports: IdsBetween, Issued.Between, Issued.Below, Op.inserts_new, Op.issues_between
-/
import SotFs.Core.Storage
import SotFs.Proofs.EditFrames
import SotFs.Proofs.Skeleton

namespace SotFs

open Foundation

/-- The ids are different and lie between two counters. -/
structure IdsBetween (ids : List Nat) (lo hi : Nat) : Prop where
  nodup : ids.Nodup
  bounds : ∀ id ∈ ids, lo ≤ id ∧ id < hi

namespace IdsBetween

variable {ids : List Nat} {lo hi : Nat}

theorem empty (lo hi : Nat) : IdsBetween [] lo hi where
  nodup := List.nodup_nil
  bounds id h := by simp at h

/-- The id of a root. -/
theorem root : IdsBetween [1] 0 2 where
  nodup := List.nodup_singleton 1
  bounds id hid := by
    rw [List.mem_singleton] at hid
    omega

/-- The next id is between the counter and any later one. -/
theorem next (h : lo < hi) : IdsBetween [lo] lo hi where
  nodup := List.nodup_singleton lo
  bounds id hid := by
    rw [List.mem_singleton] at hid
    omega

/-- Ids up to a counter and ids from there on do not meet. -/
theorem append {new : List Nat} {mid : Nat} (h : IdsBetween ids lo mid) (hnew : IdsBetween new mid hi)
    (hlo : lo ≤ mid) (hhi : mid ≤ hi) : IdsBetween (ids ++ new) lo hi where
  nodup := by
    rw [List.nodup_append]
    refine ⟨h.nodup, hnew.nodup, ?_⟩
    intro a ha b hb
    have hbelow := (h.bounds a ha).2
    have habove := (hnew.bounds b hb).1
    omega
  bounds id hid := by
    rcases List.mem_append.mp hid with hold | hid
    · have hold := h.bounds id hold
      omega
    · have hid := hnew.bounds id hid
      omega

end IdsBetween

/-- The ids of each allocator are different and lie between its counter in two graphs. -/
structure Issued.Between (ids : Issued) (g g' : TypeGraph) : Prop where
  inodes : IdsBetween ids.inodes g.nextInode g'.nextInode
  dirs : IdsBetween ids.dirs g.nextDir g'.nextDir
  caps : IdsBetween ids.caps g.nextCap g'.nextCap
  blocks : IdsBetween ids.blocks g.nextBlock g'.nextBlock
  edges : IdsBetween ids.edges g.nextEdge g'.nextEdge
  xattrs : IdsBetween ids.xattrs g.nextXattr g'.nextXattr

/-- The ids of each allocator are different and below its counter. -/
structure Issued.Below (ids : Issued) (g : TypeGraph) : Prop where
  inodes : IdsBetween ids.inodes 0 g.nextInode
  dirs : IdsBetween ids.dirs 0 g.nextDir
  caps : IdsBetween ids.caps 0 g.nextCap
  blocks : IdsBetween ids.blocks 0 g.nextBlock
  edges : IdsBetween ids.edges 0 g.nextEdge
  xattrs : IdsBetween ids.xattrs 0 g.nextXattr

theorem Issued.Below.append {ids new : Issued} {g g' : TypeGraph} (h : ids.Below g) (hnew : new.Between g g')
    (hle : CountersLe g g') : (ids.append new).Below g' where
  inodes := h.inodes.append hnew.inodes (Nat.zero_le _) hle.inode
  dirs := h.dirs.append hnew.dirs (Nat.zero_le _) hle.dir
  caps := h.caps.append hnew.caps (Nat.zero_le _) hle.cap
  blocks := h.blocks.append hnew.blocks (Nat.zero_le _) hle.block
  edges := h.edges.append hnew.edges (Nat.zero_le _) hle.edge
  xattrs := h.xattrs.append hnew.xattrs (Nat.zero_le _) hle.xattr

/-! ### The edges a call inserts -/

section Inserted

variable {now : Nat → Timestamp} {g g' : TypeGraph} {d : DirId} {n : String}

/-- A name that was free is not at an older edge. -/
theorem entry_new {e : EdgeId} {t : InodeId} (hfree : ∀ x t, g.entries x ≠ some (d, t, n))
    (hentries : g'.entries = Function.update g.entries g.nextEdge (some (d, t, n))) {t' : InodeId}
    (he : g'.entries e = some (d, t', n)) : g.nextEdge ≤ e := by
  rw [hentries, Function.update_apply] at he
  split at he
  · exact le_of_eq (Eq.symm ‹_›)
  · exact absurd he (hfree e t')

/-- The names of a new directory are not at older edges. -/
theorem Inv.enterDir_new (h : Inv g) (hedge : g.nextEdge + 3 ≤ EDGE_CAPACITY)
    (hfree : ∀ x t, g.entries x ≠ some (d, t, n)) (inode : Inode) (di : InodeId) {e : EdgeId} {src : DirId}
    {t : InodeId} {name : String} (he : (g.enterDir inode d di n).entries e = some (src, t, name))
    (hnew : (src = d ∧ name = n) ∨ g.nextDir = src) : g.nextEdge ≤ e := by
  rw [h.enterDir_entries inode d di n hedge] at he
  simp only [Function.update_apply] at he
  split at he
  · rename_i heq
    exact heq ▸ Nat.le_add_right _ 2
  · split at he
    · rename_i heq
      exact heq ▸ Nat.le_add_right _ 1
    · split at he
      · rename_i heq
        exact heq ▸ le_rfl
      · rcases hnew with ⟨rfl, rfl⟩ | rfl
        · exact absurd he (hfree e t)
        · obtain ⟨i, hi⟩ := h.shape.src_live he
          change g.dirInode g.nextDir = some i at hi
          rw [h.dirInode_fresh le_rfl] at hi
          cases hi

/-- The name of a moved entry is not at an older edge. -/
theorem Renamed.moved_new {sd dd : DirId} {sn dn : String} {di : InodeId}
    (hdd : g.dirInode dd = some di) (hsn : UserName sn) (hdn : UserName dn) (hne : sd ≠ dd)
    (hnext : g'.nextEdge ≤ EDGE_CAPACITY) (hren : Renamed now g sd sn dd dn g') {e : EdgeId} {t : InodeId}
    (he : g'.entries e = some (dd, t, dn)) : g.nextEdge ≤ e := by
  cases hren with
  | same hdir => exact absurd hdir hne
  | inPlace hdir => exact absurd hdir hne
  | @moved e₀ t₀ g₁ _ _ _ _ hcleared he₁ =>
      have hinv := hcleared.inv
      rw [hinv.moveEntry_nextEdge he₁] at hnext
      have hmoved := hinv.movedEntry_entries e₀ sd dd t₀ sn dn hnext
      rw [← hcleared.nextEdge]
      have hplain : (g₁.movedEntry e₀ sd t₀ sn dd dn).entries e = some (dd, t, dn) → g₁.nextEdge ≤ e := by
        intro hx
        rw [hmoved, Function.update_apply] at hx
        split at hx
        · exact le_of_eq (Eq.symm ‹_›)
        · rw [Function.update_apply] at hx
          split at hx
          · cases hx
          · exact absurd hx (hcleared.free e t)
      obtain ⟨i, hi⟩ := hinv.getInode_of_entry he₁
      by_cases hkind : i.vtype = .directory
      · obtain ⟨m, hm⟩ := hinv.dir_of_entry he₁ hi hkind
        obtain ⟨x, old, hx⟩ := hinv.exists_dotdot hm he₁ hsn
        rw [hinv.moveDirEntry_entries he₁ hsn (hcleared.keepDir hdd) hcleared.free hnext hm hx,
          Function.update_apply] at he
        split at he
        · cases he
          exact absurd rfl hdn.2
        · exact hplain he
      · rw [hinv.moveFileEntry_eq he₁ hi hkind] at he
        exact hplain he

end Inserted

/-! ### Block, attribute and grant edges -/

section Sides

variable {g : TypeGraph} {t : InodeId} {e : EdgeId}

/-- The pointer to a new block is not an older edge. -/
theorem Inv.attachBlock_new (h : Inv g) (hedge : g.nextEdge < EDGE_CAPACITY) {offset start count : Nat} {id o : Nat}
    {src : InodeId} (he : (g.attachBlock t offset start count).edges.data e = some (.pointsTo id src g.nextBlock o)) :
    g.nextEdge ≤ e := by
  change (g.edges.insertAt (idToArena g.nextEdge) _).2.data e = _ at he
  rw [h.edgeIds.insert_data hedge, Function.update_apply] at he
  split at he
  · exact le_of_eq (Eq.symm ‹_›)
  · have hpointer : g.edges.view Edge.pointer e = some (src, g.nextBlock, o) := by
      rw [Arena.view, he]
      rfl
    obtain ⟨blk, hblk⟩ := h.side.blocks.live hpointer
    rw [h.blockIds.fresh le_rfl] at hblk
    cases hblk

/-- The edge to a new attribute is not an older edge. -/
theorem Inv.attachXattr_new (h : Inv g) (hedge : g.nextEdge < EDGE_CAPACITY) {ns : XAttrNamespace} {name : String}
    {value : List UInt8} {id : EdgeId} {src : InodeId}
    (he : (g.attachXattr t ns name value).edges.data e = some (.hasXattr id src g.nextXattr)) : g.nextEdge ≤ e := by
  change (g.edges.insertAt (idToArena g.nextEdge) _).2.data e = _ at he
  rw [h.edgeIds.insert_data hedge, Function.update_apply] at he
  split at he
  · exact le_of_eq (Eq.symm ‹_›)
  · have hattached : g.edges.view Edge.attachment e = some (src, g.nextXattr) := by
      rw [Arena.view, he]
      rfl
    exact absurd (h.side.xattrs.lt_next (h.side.xattrs.live.mpr ⟨e, src, hattached⟩)) (lt_irrefl _)

/-- The grants that the loop over the new entries adds, and their capabilities, are new. -/
theorem Inv.foldl_grantEntry_new (mask : Option Rights) (entries : List AclEntry) :
    ∀ {g : TypeGraph}, Inv g → (entries.foldl (TypeGraph.grantEntry t mask) g).nextCap ≤ NODE_CAPACITY →
      (entries.foldl (TypeGraph.grantEntry t mask) g).nextEdge ≤ EDGE_CAPACITY → ∀ e c t' r,
      (entries.foldl (TypeGraph.grantEntry t mask) g).edges.view Edge.grant e = some (c, t', r) →
      g.edges.view Edge.grant e = some (c, t', r) ∨ (g.nextEdge ≤ e ∧ g.nextCap ≤ c) := by
  induction entries with
  | nil => exact fun _ _ _ _ _ _ _ he => .inl he
  | cons entry entries ih =>
      intro g h hcap hedge e c t' r he
      obtain ⟨hcapLe, hedgeLe⟩ := foldl_grantEntry_le t mask entries (TypeGraph.grantEntry t mask g entry)
      rw [List.foldl_cons] at hcap hedge he
      have hcap' := hcapLe.trans hcap
      have hedge' := hedgeLe.trans hedge
      rw [grantEntry_eq] at hcap hedge hcap' hedge' he
      split at hcap'
      · rename_i hskip
        rw [if_pos hskip] at hcap hedge he
        exact ih h hcap hedge e c t' r he
      · rename_i hgrant
        rw [if_neg hgrant] at hcap hedge hedge' he
        rcases ih (h.attachGrant hcap' hedge' t _) hcap hedge e c t' r he with hold | ⟨hle, hcle⟩
        · rw [show (g.attachGrant t (effectiveRights mask entry)).edges.view Edge.grant =
              Function.update (g.edges.view Edge.grant) g.nextEdge (some (g.nextCap, t, _)) from
            h.view_newEdge_some hedge' rfl, Function.update_apply] at hold
          split at hold
          · cases hold
            exact .inr ⟨le_of_eq (Eq.symm ‹_›), le_rfl⟩
          · exact .inl hold
        · exact .inr ⟨(Nat.le_succ _).trans hle, (Nat.le_succ _).trans hcle⟩

/-- The grants that are left when those into an inode are dropped lead elsewhere. -/
theorem Inv.dropGrants_none (h : Inv g) {c : CapId} {r : Rights} :
    (g.dropGrants t).edges.view Edge.grant e ≠ some (c, t, r) := by
  obtain ⟨edges, caps, capGrants, heq, _, _, _, hdata⟩ := h.dropGrants_eq t
  rw [heq, Arena.view, hdata e]
  intro he
  split at he
  · cases he
  · exact ‹e ∉ g.grantsInto t› (h.mem_grantsInto.mpr ⟨c, r, h.grant_iff.mp he⟩)

end Sides

/-! ### Calls -/

section Inserts

variable {now : Nat → Timestamp} {g : TypeGraph} {d : DirId} {n : String} {t : InodeId} {e : EdgeId}

/-- The name that create_file enters is at a new edge. -/
theorem createFile_new {u gr : UInt32} {p : Permissions} (h : Inv g) (hd : g.LiveDir d)
    (hacc : Accepted g (createFile now d n u gr p g).2) {i : InodeId} (hok : (createFile now d n u gr p g).1 = .ok i)
    (he : (createFile now d n u gr p g).2.entries e = some (d, t, n)) : g.nextEdge ≤ e := by
  rcases createFile_spec h hd (hacc.fits h) with
    ⟨o, hfail, heq⟩ | ⟨_, hfree, _, hedge, _, quotas, provLog, heq⟩
  · rw [heq] at hok
    exact absurd hok (hfail i)
  · rw [heq] at he
    exact entry_new hfree (h.enterInode_entries _ d n hedge) he

theorem symlink_new {target : String} {u gr : UInt32} (h : Inv g) (hd : g.LiveDir d)
    (hacc : Accepted g (symlink now d n target u gr g).2) {i : InodeId}
    (hok : (symlink now d n target u gr g).1 = .ok i)
    (he : (symlink now d n target u gr g).2.entries e = some (d, t, n)) : g.nextEdge ≤ e := by
  rcases symlink_spec h hd (hacc.fits h) with
    ⟨o, hfail, heq⟩ | ⟨_, hfree, _, hedge, _, quotas, provLog, heq⟩
  · rw [heq] at hok
    exact absurd hok (hfail i)
  · rw [heq] at he
    exact entry_new hfree (h.enterInode_entries _ d n hedge) he

theorem link_new {t' : InodeId} (h : Inv g) (hd : g.LiveDir d) (hacc : Accepted g (link now d n t' g).2)
    (hok : (link now d n t' g).1 = .ok ()) (he : (link now d n t' g).2.entries e = some (d, t, n)) :
    g.nextEdge ≤ e := by
  rcases link_spec h hd (hacc.fits h) with
    ⟨o, hfail, heq⟩ | ⟨_, hfree, hedge, _, _, _, _, provLog, heq⟩
  · rw [heq] at hok
    exact absurd hok (hfail ())
  · rw [heq] at he
    exact entry_new hfree (h.enterLink_entries hedge) he

/-- The name that mkdir enters and those of the new directory are at new edges. -/
theorem mkdir_new {u gr : UInt32} {p : Permissions} (h : Inv g) (hd : g.LiveDir d)
    (hacc : Accepted g (mkdir now d n u gr p g).2) {result : CreateResult}
    (hok : (mkdir now d n u gr p g).1 = .ok result) {src : DirId} {name : String}
    (he : (mkdir now d n u gr p g).2.entries e = some (src, t, name))
    (hnew : (src = d ∧ name = n) ∨ result.dirId = some src) : g.nextEdge ≤ e := by
  rcases mkdir_spec h hd (hacc.fits h) with
    ⟨o, hfail, heq⟩ | ⟨_, hfree, _, _, hedge, di, _, _, quotas, provLog, heq⟩
  · rw [heq] at hok
    exact absurd hok (hfail result)
  · rw [heq] at hok he
    cases hok
    have hentry : (g.enterDir (madeDirInode now g u gr p) d di n).entries e = some (src, t, name) := he
    exact h.enterDir_new hedge hfree _ di hentry (hnew.imp_right fun hdir => Option.some.inj hdir)

/-- The name that rename enters in another directory is at a new edge. -/
theorem rename_new {sd : DirId} {sn : String} (h : Inv g) (hd : g.LiveDir d) (hne : sd ≠ d)
    (hacc : Accepted g (rename now sd sn d n g).2) (hok : (rename now sd sn d n g).1 = .ok ())
    (he : (rename now sd sn d n g).2.entries e = some (d, t, n)) : g.nextEdge ≤ e := by
  obtain ⟨di, hdi⟩ := h.liveDir_iff.mp hd
  rcases rename_spec now sd sn d n h with ⟨o, hfail, heq⟩ | ⟨hsn, hdn, g', hren, heq⟩
  · rw [heq] at hok
    exact absurd hok (hfail ())
  · rw [heq] at hacc he
    have hnext : g'.nextEdge ≤ EDGE_CAPACITY := hacc.nextEdge_le h.edgeIds.next_le
    exact hren.moved_new hdi hsn hdn hne hnext he

/-- The pointer that write_block makes is a new edge. -/
theorem writeBlock_new {offset start count : Nat} (h : Inv g)
    (hacc : Accepted g (writeBlock t offset start count g).2) {b : BlockId}
    (hok : (writeBlock t offset start count g).1 = .ok b) {id o : Nat} {src : InodeId}
    (he : (writeBlock t offset start count g).2.edges.data e = some (.pointsTo id src b o)) : g.nextEdge ≤ e := by
  rcases writeBlock_cases t offset start count g with ⟨o, hfail, heq⟩ | ⟨_, _, heq⟩
  · rw [heq] at hok
    exact absurd hok (hfail b)
  · rw [heq] at hok he hacc
    cases hok
    exact h.attachBlock_new (hacc.nextEdge_le h.edgeIds.next_le) he

/-- The edge of an attribute that setxattr makes is a new one. -/
theorem setxattr_new {ns : XAttrNamespace} {value : List UInt8} (h : Inv g)
    (hacc : Accepted g (setxattr now t ns n value g).2) {x : XAttrId} (hok : (setxattr now t ns n value g).1 = .ok x)
    (hx : x ∉ g.xattrs) {id : EdgeId} {src : InodeId}
    (he : (setxattr now t ns n value g).2.edges.data e = some (.hasXattr id src x)) : g.nextEdge ≤ e := by
  rcases setxattr_cases now t ns n value g with ⟨o, hfail, heq⟩ | ⟨_, _, _, ⟨a, ha, heq⟩ | ⟨_, heq⟩⟩
  · rw [heq] at hok
    exact absurd hok (hfail x)
  · rw [heq] at hok
    cases hok
    obtain ⟨y, hy⟩ := h.attached_of_findXattr ha
    exact absurd (h.side.xattrs.live.mpr ⟨y, t, hy⟩) hx
  · rw [heq] at hok he hacc
    cases hok
    exact h.attachXattr_new (hacc.nextEdge_le h.edgeIds.next_le) he

/-- The grants that setacl leaves at its inode are new edges from new capabilities. -/
theorem setacl_new {entries : List AclEntry} (h : Inv g) (hacc : Accepted g (setacl now t entries g).2)
    (hok : (setacl now t entries g).1 = .ok ()) {c : CapId} {r : Rights}
    (he : (setacl now t entries g).2.edges.view Edge.grant e = some (c, t, r)) :
    g.nextEdge ≤ e ∧ g.nextCap ≤ c := by
  rcases setacl_cases now t entries g with ⟨o, hfail, heq⟩ | ⟨_, _, heq⟩
  · rw [heq] at hok
    exact absurd hok (hfail ())
  · rw [heq] at he hacc
    have hdropped : Inv { g.dropGrants t with acls := (g.dropGrants t).acls.insert t entries } :=
      (h.dropGrants t).withSides _ _ _ _ _ _
    obtain ⟨_, _, _, hnext, _⟩ := h.dropGrants_eq t
    rcases Inv.foldl_grantEntry_new (aclMask entries) entries hdropped (hacc.nextCap_le h.capIds.next_le)
      (hacc.nextEdge_le h.edgeIds.next_le) e c t r he with hold | hnew
    · exact absurd hold h.dropGrants_none
    · rw [hnext] at hnew
      exact hnew

theorem Outcome.of_map_ok {α : Type} {o : Outcome α} {f : α → Reply} {reply : Reply}
    (hok : o.map f = .ok reply) : ∃ a, o = .ok a ∧ f a = reply := by
  cases o with
  | ok a => exact ⟨a, rfl, Outcome.ok.inj hok⟩
  | err _ | panic | diverges => cases hok

theorem entry_of_data {id : EdgeId} (he : g.edges.data e = some (.contains id d t n)) :
    g.entries e = some (d, t, n) := by
  rw [TypeGraph.entries, Arena.view, he]
  rfl

variable {op : Op} {reply : Reply}

/-- An edge that a call inserts has a new id, and so has the capability it comes from. -/
theorem Op.inserts_new (h : Inv g) (hcall : InCapacityCall g op (op.apply now g).2)
    (hok : (op.apply now g).1 = .ok reply) {edge : Edge} (he : (op.apply now g).2.edges.data e = some edge)
    (hinserts : op.inserts g reply edge = true) :
    g.nextEdge ≤ e ∧ ∀ c, edge.grantor = some c → g.nextCap ≤ c := by
  obtain ⟨hdirs, hacc⟩ := hcall
  unfold Op.inserts at hinserts
  split at hinserts
  · rename_i d n u gr p _ src t name
    obtain ⟨rfl, rfl⟩ := of_decide_eq_true hinserts
    obtain ⟨i, hmade, _⟩ : ∃ i, (SotFs.createFile now src name u gr p g).1 = .ok i ∧ Reply.inode i = reply :=
      Outcome.of_map_ok hok
    exact ⟨createFile_new h (hdirs src (by simp [Op.dirs])) hacc hmade (entry_of_data he), fun c hc => by cases hc⟩
  · rename_i d n target u gr _ src t name
    obtain ⟨rfl, rfl⟩ := of_decide_eq_true hinserts
    obtain ⟨i, hmade, _⟩ : ∃ i, (SotFs.symlink now src name target u gr g).1 = .ok i ∧ Reply.inode i = reply :=
      Outcome.of_map_ok hok
    exact ⟨symlink_new h (hdirs src (by simp [Op.dirs])) hacc hmade (entry_of_data he), fun c hc => by cases hc⟩
  · rename_i d n t' _ src t name
    obtain ⟨rfl, rfl⟩ := of_decide_eq_true hinserts
    obtain ⟨_, hmade, _⟩ : ∃ a, (SotFs.link now src name t' g).1 = .ok a ∧ Reply.done = reply :=
      Outcome.of_map_ok hok
    exact ⟨link_new h (hdirs src (by simp [Op.dirs])) hacc hmade (entry_of_data he), fun c hc => by cases hc⟩
  · rename_i sd sn dd dn _ src t name
    obtain ⟨hne, rfl, rfl⟩ := of_decide_eq_true hinserts
    obtain ⟨_, hmade, _⟩ : ∃ a, (SotFs.rename now sd sn src name g).1 = .ok a ∧ Reply.done = reply :=
      Outcome.of_map_ok hok
    exact ⟨rename_new h (hdirs src (by simp [Op.dirs])) hne hacc hmade (entry_of_data he), fun c hc => by cases hc⟩
  · rename_i d n u gr p _ src t name
    obtain ⟨result, hmade, rfl⟩ : ∃ a, (SotFs.mkdir now d n u gr p g).1 = .ok a ∧ Reply.created a = reply :=
      Outcome.of_map_ok hok
    refine ⟨?_, fun c hc => by cases hc⟩
    exact mkdir_new h (hdirs d (by simp [Op.dirs])) hacc hmade (entry_of_data he) (of_decide_eq_true hinserts)
  · rename_i t offset start count _ src b o
    obtain ⟨b', hmade, rfl⟩ : ∃ a, (SotFs.writeBlock t offset start count g).1 = .ok a ∧ Reply.block a = reply :=
      Outcome.of_map_ok hok
    have hb : some b' = some b := of_decide_eq_true hinserts
    cases hb
    exact ⟨writeBlock_new h hacc hmade he, fun c hc => by cases hc⟩
  · rename_i t ns n v _ src x
    obtain ⟨x', hmade, rfl⟩ : ∃ a, (SotFs.setxattr now t ns n v g).1 = .ok a ∧ Reply.xattr a = reply :=
      Outcome.of_map_ok hok
    have hx : (Reply.xattr x').newXattr g = some x := of_decide_eq_true hinserts
    rw [Reply.newXattr] at hx
    split at hx
    · cases hx
    · cases hx
      exact ⟨setxattr_new h hacc hmade ‹_› he, fun c hc => by cases hc⟩
  · rename_i t entries _ c t' r
    have hinto : t' = t := of_decide_eq_true hinserts
    subst hinto
    obtain ⟨_, hmade, _⟩ : ∃ a, (SotFs.setacl now t' entries g).1 = .ok a ∧ Reply.done = reply :=
      Outcome.of_map_ok hok
    have hdata : (SotFs.setacl now t' entries g).2.edges.data e = some _ := he
    have hgrant : (SotFs.setacl now t' entries g).2.edges.view Edge.grant e = some (c, t', r) := by
      rw [Arena.view, hdata]
      rfl
    obtain ⟨hedge, hcap⟩ := setacl_new h hacc hmade hgrant
    refine ⟨hedge, ?_⟩
    intro c' hc'
    cases hc'
    exact hcap
  · cases hinserts

/-- What a call returns as new has the next id of its allocator. -/
structure Reply.Next (g g' : TypeGraph) (reply : Reply) : Prop where
  inodes : IdsBetween reply.newInode.toList g.nextInode g'.nextInode
  dirs : IdsBetween reply.newDir.toList g.nextDir g'.nextDir
  blocks : IdsBetween reply.newBlock.toList g.nextBlock g'.nextBlock
  xattrs : IdsBetween (reply.newXattr g).toList g.nextXattr g'.nextXattr

theorem Reply.Next.done (g g' : TypeGraph) : Reply.done.Next g g' :=
  ⟨.empty _ _, .empty _ _, .empty _ _, .empty _ _⟩

theorem Reply.Next.inode {g' : TypeGraph} (h : g.nextInode < g'.nextInode) : (Reply.inode g.nextInode).Next g g' :=
  ⟨.next h, .empty _ _, .empty _ _, .empty _ _⟩

/-- A call returns as new only the next ids. -/
theorem Op.replies_next (h : Inv g) (hcall : InCapacityCall g op (op.apply now g).2)
    (hok : (op.apply now g).1 = .ok reply) : reply.Next g (op.apply now g).2 := by
  obtain ⟨hdirs, hacc⟩ := hcall
  cases op with
  | createFile d n u gr p =>
      obtain ⟨i, hmade, rfl⟩ : ∃ i, (SotFs.createFile now d n u gr p g).1 = .ok i ∧ Reply.inode i = reply :=
        Outcome.of_map_ok hok
      rw [Op.apply, Prod.map_snd] at hacc ⊢
      rcases createFile_spec h (hdirs d (by simp [Op.dirs])) (hacc.fits h) with
        ⟨o, hfail, heq⟩ | ⟨_, _, _, _, _, quotas, provLog, heq⟩
      · rw [heq] at hmade
        exact absurd hmade (hfail i)
      · rw [heq] at hmade ⊢
        cases hmade
        exact .inode (Nat.lt_succ_self _)
  | symlink d n target u gr =>
      obtain ⟨i, hmade, rfl⟩ : ∃ i, (SotFs.symlink now d n target u gr g).1 = .ok i ∧ Reply.inode i = reply :=
        Outcome.of_map_ok hok
      rw [Op.apply, Prod.map_snd] at hacc ⊢
      rcases symlink_spec h (hdirs d (by simp [Op.dirs])) (hacc.fits h) with
        ⟨o, hfail, heq⟩ | ⟨_, _, _, _, _, quotas, provLog, heq⟩
      · rw [heq] at hmade
        exact absurd hmade (hfail i)
      · rw [heq] at hmade ⊢
        cases hmade
        exact .inode (Nat.lt_succ_self _)
  | mkdir d n u gr p =>
      obtain ⟨result, hmade, rfl⟩ : ∃ a, (SotFs.mkdir now d n u gr p g).1 = .ok a ∧ Reply.created a = reply :=
        Outcome.of_map_ok hok
      rw [Op.apply, Prod.map_snd] at hacc ⊢
      rcases mkdir_spec h (hdirs d (by simp [Op.dirs])) (hacc.fits h) with
        ⟨o, hfail, heq⟩ | ⟨_, _, _, _, _, di, _, _, quotas, provLog, heq⟩
      · rw [heq] at hmade
        exact absurd hmade (hfail result)
      · rw [heq] at hmade ⊢
        cases hmade
        exact ⟨.next (Nat.lt_succ_self _), .next (Nat.lt_succ_self _), .empty _ _, .empty _ _⟩
  | writeBlock t offset start count =>
      obtain ⟨b, hmade, rfl⟩ : ∃ a, (SotFs.writeBlock t offset start count g).1 = .ok a ∧ Reply.block a = reply :=
        Outcome.of_map_ok hok
      rw [Op.apply, Prod.map_snd]
      rcases writeBlock_cases t offset start count g with ⟨o, hfail, heq⟩ | ⟨_, _, heq⟩
      · rw [heq] at hmade
        exact absurd hmade (hfail b)
      · rw [heq] at hmade ⊢
        cases hmade
        exact ⟨.empty _ _, .empty _ _, .next (Nat.lt_succ_self _), .empty _ _⟩
  | setxattr t ns n v =>
      obtain ⟨x, hmade, rfl⟩ : ∃ a, (SotFs.setxattr now t ns n v g).1 = .ok a ∧ Reply.xattr a = reply :=
        Outcome.of_map_ok hok
      rw [Op.apply, Prod.map_snd]
      refine ⟨.empty _ _, .empty _ _, .empty _ _, ?_⟩
      rw [Reply.newXattr]
      split
      · exact .empty _ _
      · rcases setxattr_cases now t ns n v g with ⟨o, hfail, heq⟩ | ⟨_, _, _, ⟨a, ha, heq⟩ | ⟨_, heq⟩⟩
        · rw [heq] at hmade
          exact absurd hmade (hfail x)
        · rw [heq] at hmade
          cases hmade
          obtain ⟨y, hy⟩ := h.attached_of_findXattr ha
          exact absurd (h.side.xattrs.live.mpr ⟨y, t, hy⟩) ‹_›
        · rw [heq] at hmade ⊢
          cases hmade
          exact .next (Nat.lt_succ_self _)
  | writeData =>
      obtain ⟨count, _, rfl⟩ := Outcome.of_map_ok hok
      exact ⟨.empty _ _, .empty _ _, .empty _ _, .empty _ _⟩
  | rmdir | link | unlink | rename | truncate | chmod | chown | removexattr | setacl | setQuota =>
      obtain ⟨_, _, rfl⟩ := Outcome.of_map_ok hok
      exact .done _ _

/-- Different edges sit at different slots. -/
theorem Inv.filter_edges_nodup (h : Inv g) (p : Edge → Bool) : ((g.edges.iter.map Prod.snd).filter p).Nodup := by
  refine List.Nodup.filter _ ?_
  refine g.edges.iter_nodup.map_on ?_
  rintro ⟨s, v⟩ hs ⟨s', v'⟩ hs' rfl
  rw [← h.edgeIds.id_eq (Arena.mem_iter.mp hs), ← h.edgeIds.id_eq (Arena.mem_iter.mp hs')]

theorem Inv.mem_filter_edges (h : Inv g) {p : Edge → Bool} {edge : Edge} :
    edge ∈ (g.edges.iter.map Prod.snd).filter p ↔ g.edges.data edge.id = some edge ∧ p edge = true := by
  rw [List.mem_filter, List.mem_map]
  refine and_congr_left fun _ => ?_
  constructor
  · rintro ⟨⟨s, v⟩, hs, rfl⟩
    have hdata := Arena.mem_iter.mp hs
    rw [h.edgeIds.id_eq hdata]
    exact hdata
  · exact fun hdata => ⟨(edge.id, edge), Arena.mem_iter.mpr hdata, rfl⟩

/-- The capability of a grant is live, and no other grant comes from it. -/
theorem Inv.grantor (h : Inv g) {edge : Edge} (hdata : g.edges.data edge.id = some edge) {c : CapId}
    (hc : edge.grantor = some c) : c < g.nextCap ∧ g.capGrants[c]? = some edge.id := by
  cases edge with
  | grants id src t r =>
      cases hc
      have hgrant : g.edges.view Edge.grant id = some (c, t, r) := h.grant_iff.mpr hdata
      obtain ⟨cap, hcap⟩ := h.side.grants.live hgrant
      exact ⟨h.capIds.lt_next hcap, h.side.grants.index.get hgrant⟩
  | _ => cases hc

/-- The ids a call issues are different and between its counters. -/
theorem Op.issues_between (h : Inv g) (hcall : InCapacityCall g op (op.apply now g).2) :
    (op.issues g (op.apply now g).1 (op.apply now g).2).Between g (op.apply now g).2 := by
  cases hout : (op.apply now g).1 with
  | ok reply =>
      have hinv : Inv (op.apply now g).2 := op.apply_inv now h hcall.1 hcall.2
      have hnext := op.replies_next h hcall hout
      have hnew : ∀ edge ∈ ((op.apply now g).2.edges.iter.map Prod.snd).filter (op.inserts g reply),
          (op.apply now g).2.edges.data edge.id = some edge ∧ g.nextEdge ≤ edge.id ∧
            ∀ c, edge.grantor = some c → g.nextCap ≤ c := by
        intro edge hedge
        obtain ⟨hdata, hinserts⟩ := hinv.mem_filter_edges.mp hedge
        exact ⟨hdata, op.inserts_new h hcall hout hdata hinserts⟩
      refine ⟨hnext.inodes, hnext.dirs, ⟨?_, ?_⟩, hnext.blocks, ⟨?_, ?_⟩, hnext.xattrs⟩
      · refine List.pairwise_filterMap.mpr ((hinv.filter_edges_nodup _).imp_of_mem ?_)
        rintro edge edge' hedge hedge' hne c hc _ hc' rfl
        have hid := (hinv.grantor (hnew edge hedge).1 hc).2
        rw [(hinv.grantor (hnew edge' hedge').1 hc').2] at hid
        refine hne (Option.some.inj ((hnew edge hedge).1.symm.trans ?_))
        rw [← Option.some.inj hid]
        exact (hnew edge' hedge').1
      · intro c hc
        obtain ⟨edge, hedge, hgrantor⟩ := List.mem_filterMap.mp hc
        obtain ⟨hdata, _, hcap⟩ := hnew edge hedge
        exact ⟨hcap c hgrantor, (hinv.grantor hdata hgrantor).1⟩
      · refine (hinv.filter_edges_nodup _).map_on ?_
        intro edge hedge edge' hedge' hid
        obtain ⟨hdata, _⟩ := hnew edge hedge
        obtain ⟨hdata', _⟩ := hnew edge' hedge'
        rw [hid] at hdata
        exact Option.some.inj (hdata.symm.trans hdata')
      · intro id hid
        obtain ⟨edge, hedge, rfl⟩ := List.mem_map.mp hid
        obtain ⟨hdata, hle, _⟩ := hnew edge hedge
        exact ⟨hle, hinv.edgeIds.lt_next hdata⟩
  | err _ | panic | diverges =>
      exact ⟨.empty _ _, .empty _ _, .empty _ _, .empty _ _, .empty _ _, .empty _ _⟩

end Inserts

end SotFs
