/-
Module: SotFs.Proofs.Authority
Layer: Proofs
Purpose: Privilege separation. A call whose right the context lacks does nothing. A call that asks for the
  write right leaves capabilities, ACLs, the limits of quotas and the owner and mode of every inode alone, on
  whatever graph; it leaves the grant edges alone as long as it issues no edge id from 2^32 on, for such an
  id shares the slot of an older edge. A capability without the grant right therefore changes none of these
  by calls that issue smaller ids, and can take a grant away by one that issues a larger one.
Trusted boundary: none
Main exports: Authority, SameAuthority, Op.refused, Op.IdsFit, privilege_separation, grants_removed_by_writer
-/
import SotFs.Proofs.EditFrames
import SotFs.Proofs.GrantEdges
import SotFs.Proofs.InodePool
import SotFs.Proofs.Replay

namespace SotFs

open Std (ExtTreeMap ExtTreeSet)
open Relation Foundation

/-! ### Admission -/

/-- A call whose right the context lacks fails and leaves the graph as it is. -/
theorem Op.refused {op : Op} {g : TypeGraph} {now : Nat → Timestamp} {e : GraphError}
    (hright : g.requireCap op.right = .error e) : op.apply now g = (.err e, g) := by
  -- the check is the first thing every operation does
  cases op <;>
    (simp only [Op.right] at hright
     simp only [Op.apply, SotFs.createFile, SotFs.mkdir, SotFs.rmdir, SotFs.link, SotFs.unlink,
       SotFs.rename, SotFs.symlink, SotFs.writeBlock, SotFs.writeData, SotFs.truncate, SotFs.chmod,
       SotFs.chown, SotFs.setxattr, SotFs.removexattr, SotFs.setacl, SotFs.setQuota, hright]
     rfl)

/-- A capability that is missing or lacks a right is refused it. -/
theorem requireCap_error {g : TypeGraph} {c : CapId} {right : UInt8} (hctx : g.capCtx.capId = some c)
    (hlacks : ∀ cap, g.getCap c = some cap → cap.rights.contains right = false) :
    ∃ e, g.requireCap right = .error e := by
  unfold TypeGraph.requireCap
  rw [hctx]
  dsimp only
  cases hcap : g.getCap c with
  | none => exact ⟨_, rfl⟩
  | some cap =>
      dsimp only
      rw [if_neg (by rw [hlacks cap hcap]; exact Bool.false_ne_true)]
      exact ⟨_, rfl⟩

/-! ### Capabilities, ACLs and limits -/

/-- Who may do what, as far as tables say it: capabilities, their grant edges by id, ACLs, and the limits of
    the quotas. -/
structure Authority where
  caps : Arena Capability NODE_CAPACITY
  capGrants : ExtTreeMap CapId EdgeId
  acls : ExtTreeMap InodeId (List AclEntry)
  limits : DirId → Option (Nat × Nat)
  capCtx : CapContext

/-- The authority that the tables of a graph give. -/
def TypeGraph.authority (g : TypeGraph) : Authority where
  caps := g.caps
  capGrants := g.capGrants
  acls := g.acls
  limits d := g.quotas[d]?.map fun q => (q.inodeLimit, q.byteLimit)
  capCtx := g.capCtx

section Authority

variable {now : Nat → Timestamp} {g g' : TypeGraph}

/-- A call that asks for the write right leaves the authority alone, whatever its outcome. -/
theorem Op.authority_eq {op : Op} (hright : op.right = Rights.write) :
    (op.apply now g).2.authority = g.authority := by
  have hacl : ∀ t es, op ≠ .setacl t es := by
    rintro t es rfl
    exact grant_ne_write hright
  have hquota : ∀ d il bl, op ≠ .setQuota d il bl := by
    rintro d il bl rfl
    exact grant_ne_write hright
  have hkept := op.holdings_kept now g
  have hgrants := hkept.grants hacl
  have hacls : (op.apply now g).2.acls = g.acls := hgrants.1
  have hcaps : (op.apply now g).2.caps = g.caps := hgrants.2.1
  have hindex : (op.apply now g).2.capGrants = g.capGrants := hgrants.2.2.2
  have hctx : (op.apply now g).2.capCtx = g.capCtx := hkept.capCtx
  -- the limits of a quota are two of its terms
  have hlimits : ∀ (g : TypeGraph) (d : DirId), (g.quotas[d]?.map fun q => (q.inodeLimit, q.byteLimit)) =
      (g.holdings.quotaTerms d).map fun terms => (terms.1, terms.2.1) := by
    intro g d
    change _ = (g.quotas[d]?.map Quota.terms).map _
    rw [Option.map_map]
    rfl
  unfold TypeGraph.authority
  rw [hcaps, hindex, hacls, hctx]
  congr 1
  funext d
  rw [hlimits, hlimits, hkept.quotaTerms d (hquota d)]

end Authority

/-! ### Owners and modes -/

/-- Owner and mode of an inode. -/
def Inode.attributes (i : Inode) : Permissions × UInt32 × UInt32 := (i.permissions, i.uid, i.gid)

/-- From one inode pool and counter to a later pair: every inode is new, with an id from the first counter
    on, or was there before with the same id, owner and mode. -/
structure AttributesKept (next next' : Nat) (a a' : Arena Inode NODE_CAPACITY) : Prop where
  le : next ≤ next'
  old : ∀ {s i'}, a'.data s = some i' → next ≤ i'.id ∨
    ∃ i, a.data s = some i ∧ i'.id = i.id ∧ i'.attributes = i.attributes

namespace AttributesKept

variable {next next' next'' : Nat} {a a' a'' : Arena Inode NODE_CAPACITY}

theorem refl (next : Nat) (a : Arena Inode NODE_CAPACITY) : AttributesKept next next a a :=
  ⟨le_rfl, fun hs => .inr ⟨_, hs, rfl, rfl⟩⟩

theorem trans (h₁ : AttributesKept next next' a a') (h₂ : AttributesKept next' next'' a' a'') :
    AttributesKept next next'' a a'' := by
  refine ⟨h₁.le.trans h₂.le, ?_⟩
  intro s i'' hi''
  rcases h₂.old hi'' with hnew | ⟨i', hi', hid', hattr'⟩
  · exact .inl (h₁.le.trans hnew)
  · rcases h₁.old hi' with hnew | ⟨i, hi, hid, hattr⟩
    · exact .inl (hid' ▸ hnew)
    · exact .inr ⟨i, hi, hid'.trans hid, hattr'.trans hattr⟩

end AttributesKept

/-- A call that asks for the write right keeps owner and mode of every inode but the one it makes, on
    whatever graph. -/
theorem Op.attributes_kept {op : Op} {now : Nat → Timestamp} {g : TypeGraph}
    (hright : op.right = Rights.write) :
    AttributesKept g.nextInode (op.apply now g).2.nextInode g.inodes (op.apply now g).2.inodes := by
  have hstep := op.poolStep now g
  refine ⟨hstep.le, ?_⟩
  intro s i' hi'
  rcases hstep.old hi' with hborn | ⟨i, hi, hkept⟩
  · exact .inl hborn.le
  · -- chmod and chown ask for the grant right
    have hchmod : ∀ t m, op ≠ .chmod t m := by
      rintro t m rfl
      exact grant_ne_write hright
    have hchown : ∀ t u gr, op ≠ .chown t u gr := by
      rintro t u gr rfl
      exact grant_ne_write hright
    have howner := hkept.owner hchown
    refine .inr ⟨i, hi, hkept.id, ?_⟩
    unfold Inode.attributes
    rw [hkept.permissions hchmod, howner.1, howner.2]

/-! ### Sequences of calls under one context -/

/-- The context names a capability that is missing or lacks a right. -/
def TypeGraph.Lacks (g : TypeGraph) (right : UInt8) : Prop :=
  ∃ c, g.capCtx.capId = some c ∧ ∀ cap, g.getCap c = some cap → cap.rights.contains right = false

/-- The same capabilities, ACLs and quota limits, and the same owner and mode of every inode that is in both
    graphs. -/
structure SameAuthority (g g' : TypeGraph) : Prop where
  caps : ∀ c, g'.caps.get c = g.caps.get c
  acls : ∀ t : InodeId, g'.acls[t]? = g.acls[t]?
  limits : ∀ d : DirId, (g'.quotas[d]?.map fun q => (q.inodeLimit, q.byteLimit)) =
    g.quotas[d]?.map fun q => (q.inodeLimit, q.byteLimit)
  attributes : ∀ {s s' i i'}, g.inodes.get s = some i → g'.inodes.get s' = some i' → i'.id = i.id →
    i'.permissions = i.permissions ∧ i'.uid = i.uid ∧ i'.gid = i.gid

/-- The edge ids that the call may issue stay below 2^32. -/
def Op.IdsFit (op : Op) (g : TypeGraph) : Prop := g.nextEdge + op.edgeIds ≤ 2 ^ 32

instance (op : Op) (g : TypeGraph) : Decidable (op.IdsFit g) := inferInstanceAs (Decidable (_ ≤ _))

/-- The same grant edges. -/
def SameGrants (g g' : TypeGraph) : Prop :=
  ∀ e id c t r, g'.edges.get e = some (.grants id c t r) ↔ g.edges.get e = some (.grants id c t r)

section Sequences

variable {now : Nat → Timestamp} {g g' : TypeGraph}

theorem Op.right_eq (op : Op) : op.right = Rights.grant ∨ op.right = Rights.write := by
  cases op with
  | chmod | chown | setacl | setQuota => exact .inl rfl
  | _ => exact .inr rfl

theorem TypeGraph.Lacks.refused (op : Op) (now : Nat → Timestamp) (hlacks : g.Lacks op.right) :
    ∃ e, op.apply now g = (.err e, g) := by
  obtain ⟨c, hctx, hcap⟩ := hlacks
  obtain ⟨e, he⟩ := requireCap_error hctx hcap
  exact ⟨e, op.refused he⟩

/-- What a context lacks is told by the authority. -/
theorem TypeGraph.Lacks.of_authority {right : UInt8} (h : g'.authority = g.authority)
    (hlacks : g.Lacks right) : g'.Lacks right := by
  obtain ⟨c, hctx, hcap⟩ := hlacks
  have hcaps : g'.caps = g.caps := congrArg Authority.caps h
  have hctx' : g'.capCtx = g.capCtx := congrArg Authority.capCtx h
  refine ⟨c, by rw [hctx', hctx], ?_⟩
  intro cap hget
  refine hcap cap ?_
  rw [TypeGraph.getCap, ← hcaps]
  exact hget

/-- One call without the grant right: it is refused, or it asks for the write right only. -/
theorem Op.authority_step (now : Nat → Timestamp) (op : Op) (hlacks : g.Lacks Rights.grant) :
    (op.apply now g).2.authority = g.authority ∧
      AttributesKept g.nextInode (op.apply now g).2.nextInode g.inodes (op.apply now g).2.inodes := by
  rcases op.right_eq with hright | hright
  · obtain ⟨e, he⟩ := TypeGraph.Lacks.refused op now (by rwa [hright])
    rw [he]
    exact ⟨rfl, .refl _ _⟩
  · exact ⟨op.authority_eq hright, op.attributes_kept hright⟩

/-- Any number of calls without the grant right. -/
theorem Calls.authority {allowed : TypeGraph → Op → TypeGraph → Prop} (hlacks : g.Lacks Rights.grant)
    (hcalls : Calls allowed g g') :
    g'.authority = g.authority ∧ AttributesKept g.nextInode g'.nextInode g.inodes g'.inodes := by
  induction hcalls with
  | refl => exact ⟨rfl, .refl _ _⟩
  | tail _ hstep ih =>
      obtain ⟨now, op, _⟩ := hstep
      obtain ⟨hauth, hattr⟩ := Op.authority_step now op (hlacks.of_authority ih.1)
      exact ⟨hauth.trans ih.1, ih.2.trans hattr⟩

/-- The ids of the inodes of a run have been issued. -/
theorem Run.inode_lt {allowed : TypeGraph → Op → TypeGraph → Prop} {g : TypeGraph} (hrun : Run allowed g) :
    ∀ {s i}, g.inodes.data s = some i → i.id < g.nextInode := by
  induction hrun with
  | new now => exact fun hs => (Inv.new now).inodeIds.id_eq hs ▸ (Inv.new now).inodeIds.lt_next hs
  | @call g now op _ _ ih =>
      intro s i' hi'
      have hstep := op.poolStep now g
      rcases hstep.old hi' with hborn | ⟨i, hi, hkept⟩
      · exact hborn.lt
      · rw [hkept.id]
        exact (ih hi).trans_le hstep.le
  | setCapCtx _ _ ih => exact ih
  | enableProvLog _ ih => exact ih
  | disableProvLog _ ih => exact ih

/-- An inode that is in both graphs is an old one, so it keeps its owner and mode. -/
theorem Run.sameAuthority {allowed : TypeGraph → Op → TypeGraph → Prop} (hg : Run allowed g)
    (hauth : g'.authority = g.authority)
    (hattr : AttributesKept g.nextInode g'.nextInode g.inodes g'.inodes) : SameAuthority g g' := by
  have hcaps : g'.caps = g.caps := congrArg Authority.caps hauth
  have hacls : g'.acls = g.acls := congrArg Authority.acls hauth
  refine
    { caps := fun c => by rw [hcaps]
      acls := fun t => by rw [hacls]
      limits := fun d => congrFun (congrArg Authority.limits hauth) d
      attributes := ?_ }
  intro s s' i i' hi hi' hid
  rw [Arena.get_eq_data] at hi hi'
  rcases hattr.old hi' with hnew | ⟨j, hj, hidj, hkept⟩
  · rw [hid] at hnew
    exact absurd (hg.inode_lt hi) (not_lt.mpr hnew)
  · -- both records of the old pool carry the same id, so they are one
    have hslot : s' = s := by
      rw [← hg.slotted.inodes.slot hj, ← hidj, hid, hg.slotted.inodes.slot hi]
    subst hslot
    rw [hi] at hj
    cases hj
    exact ⟨congrArg Prod.fst hkept, congrArg (fun a => a.2.1) hkept, congrArg (fun a => a.2.2) hkept⟩

theorem sameGrants_of_view (h : g'.grantEdges = g.grantEdges) :
    SameGrants g g' := by
  have hget : ∀ {g : TypeGraph} {e id c t r}, g.edges.get e = some (.grants id c t r) ↔
      g.grantEdges e = some (.grants id c t r) := by
    intro g e id c t r
    rw [Arena.get_eq_data, TypeGraph.grantEdges, Arena.view_eq_some]
    constructor
    · intro hv
      exact ⟨_, hv, rfl⟩
    · rintro ⟨v, hv, hproj⟩
      cases v with
      | grants =>
          cases hproj
          exact hv
      | _ => cases hproj
  intro e id c t r
  rw [hget, hget, h]

/-- Calls without the grant right that issue no edge id from 2^32 on keep every grant edge. -/
theorem Calls.grants {v : Nat → Option Edge} (hlacks : g.Lacks Rights.grant) (hle : g.nextEdge ≤ 2 ^ 32)
    (hkept : g.GrantsKept v) (hcalls : Calls (fun g op _ => op.IdsFit g) g g') :
    g'.nextEdge ≤ 2 ^ 32 ∧ g'.GrantsKept v := by
  induction hcalls with
  | refl => exact ⟨hle, hkept⟩
  | tail hbefore hstep ih =>
      obtain ⟨now, op, hfit⟩ := hstep
      obtain ⟨hle₁, hkept₁⟩ := ih
      have hlacks₁ := hlacks.of_authority (Calls.authority hlacks hbefore).1
      rcases op.right_eq with hright | hright
      · obtain ⟨e, he⟩ := TypeGraph.Lacks.refused op now (by rwa [hright])
        rw [he]
        exact ⟨hle₁, hkept₁⟩
      · refine ⟨(op.nextEdge_le now _ hright).trans hfit, hkept₁.apply ?_⟩
        rintro t entries rfl
        exact grant_ne_write hright

/-- From the state of a run, whether or not anything is called. -/
theorem Run.sameGrants {allowed : TypeGraph → Op → TypeGraph → Prop} (hg : Run allowed g)
    (hlacks : g.Lacks Rights.grant) (hcalls : Calls (fun g op _ => op.IdsFit g) g g') : SameGrants g g' := by
  obtain ⟨v, hkept⟩ := hg.grantsKept
  rcases hcalls.cases_head with rfl | ⟨g₁, hfirst, _⟩
  · exact sameGrants_of_view rfl
  · obtain ⟨now, op, hfit⟩ := hfirst
    have hle : g.nextEdge ≤ 2 ^ 32 := (Nat.le_add_right _ _).trans hfit
    obtain ⟨hle', hkept'⟩ := Calls.grants hlacks hle hkept hcalls
    exact sameGrants_of_view ((hkept' hle').grants.trans (hkept hle).grants.symm)

end Sequences

/-! ### Edge ids that share a slot -/

/-- Blocks were written to one inode: what was stored in `g₀` is where it was, and the inode points at every
    edge id issued since. -/
structure Padded (t : InodeId) (n : Nat) (g₀ g : TypeGraph) : Prop where
  stored : ∀ {s v}, g₀.edges.data s = some v → g.edges.data s = some v
  inodes : g.inodes = g₀.inodes
  sets : g.dirContains = g₀.dirContains
  caps : g.caps = g₀.caps
  capCtx : g.capCtx = g₀.capCtx
  nextEdge : g.nextEdge = g₀.nextEdge + n
  listed : ∀ k < n, g₀.nextEdge + k ∈ SetIndex.members g.inodePointsTo t

namespace Padded

variable {t : InodeId} {n : Nat} {g₀ g : TypeGraph} {now : Nat → Timestamp}

theorem requireCap (h : Padded t n g₀ g) (right : UInt8) : g.requireCap right = g₀.requireCap right := by
  unfold TypeGraph.requireCap TypeGraph.getCap
  rw [h.caps, h.capCtx]

/-- One more block, stored or refused. -/
theorem writeBlock (h : Padded t n g₀ g) (hcap : g₀.requireCap Rights.write = .ok ())
    (hlive : g₀.containsInode t = true) (offset start count : Nat) :
    Padded t (n + 1) g₀ ((Op.writeBlock t offset start count).apply now g).2 := by
  have hlive' : g.containsInode t = true := by
    rw [TypeGraph.containsInode, h.inodes]
    exact hlive
  have heq : SotFs.writeBlock t offset start count g =
      (.ok g.nextBlock, g.attachBlock t offset start count) := by
    unfold SotFs.writeBlock
    rw [h.requireCap, hcap]
    simp only [hlive', if_false, Bool.not_true, Bool.false_eq_true]
    rfl
  rw [Op.apply, heq]
  refine
    { stored := ?_
      inodes := h.inodes
      sets := h.sets
      caps := h.caps
      capCtx := h.capCtx
      nextEdge := congrArg (· + 1) h.nextEdge
      listed := ?_ }
  · intro s v hs
    have hold := h.stored hs
    change (g.edges.insertAt (idToArena g.nextEdge) _).2.data s = some v
    rcases g.edges.insertAt_cases (idToArena g.nextEdge) (.pointsTo g.nextEdge t g.nextBlock offset) with
      ⟨hvacant, _, hdata, _⟩ | ⟨_, hsame⟩
    · rw [hdata, Function.update_of_ne, hold]
      rintro rfl
      rw [hold] at hvacant
      cases hvacant
    · rw [hsame, hold]
  · intro k hk
    refine SetIndex.mem_members_add.mpr ?_
    rcases Nat.lt_succ_iff_lt_or_eq.mp hk with hlt | rfl
    · exact .inr (h.listed k hlt)
    · exact .inl ⟨rfl, h.nextEdge.symm⟩

/-- Block after block. -/
theorem calls (hcap : g₀.requireCap Rights.write = .ok ()) (hlive : g₀.containsInode t = true)
    (offset start count : Nat) (n : Nat) :
    Padded t n g₀ (g₀.calls now (List.replicate n (.writeBlock t offset start count))) := by
  induction n with
  | zero => exact ⟨id, rfl, rfl, rfl, rfl, rfl, fun k hk => absurd hk (Nat.not_lt_zero k)⟩
  | succ n ih =>
      rw [List.replicate_succ', TypeGraph.calls, List.foldl_append]
      exact ih.writeBlock hcap hlive offset start count

end Padded

section Vacated

variable {g : TypeGraph}

/-- Releasing a block edge removes it, and may change the pool of blocks. -/
theorem releaseBlockEdge_removes (g : TypeGraph) (e : EdgeId) :
    ∃ blocks, g.releaseBlockEdge e = { (g.removeEdge e).2 with blocks := blocks } := by
  unfold TypeGraph.releaseBlockEdge
  generalize g.removeEdge e = r
  obtain ⟨removed, g₁⟩ := r
  cases removed with
  | none => exact ⟨g₁.blocks, rfl⟩
  | some v =>
      cases v with
      | pointsTo _ _ b _ =>
          dsimp only
          split
          · split
            · exact ⟨_, rfl⟩
            · exact ⟨_, rfl⟩
          · exact ⟨g₁.blocks, rfl⟩
      | _ => exact ⟨g₁.blocks, rfl⟩

theorem releaseBlockEdge_data (g : TypeGraph) (e : EdgeId) :
    (g.releaseBlockEdge e).edges.data = Function.update g.edges.data (idToArena e) none := by
  obtain ⟨blocks, heq⟩ := releaseBlockEdge_removes g e
  rw [heq]
  exact removeEdge_data g e

/-- Releasing block edges empties the slots of their ids. -/
theorem foldl_releaseBlockEdge_vacates {s : Nat} (es : List EdgeId) : ∀ {g : TypeGraph},
    (g.edges.data s = none ∨ ∃ e ∈ es, idToArena e = s) →
      (es.foldl TypeGraph.releaseBlockEdge g).edges.data s = none := by
  induction es with
  | nil =>
      rintro g (hs | ⟨e, he, _⟩)
      · exact hs
      · cases he
  | cons e es ih =>
      intro g hs
      refine ih ?_
      rw [releaseBlockEdge_data, Function.update_apply]
      by_cases heq : s = idToArena e
      · exact .inl (if_pos heq)
      · rw [if_neg heq]
        refine hs.imp_right ?_
        rintro ⟨x, hx, hslot⟩
        rcases List.mem_cons.mp hx with rfl | hx
        · exact absurd hslot.symm heq
        · exact ⟨x, hx, hslot⟩

/-- An inode that is collected takes the edges at the slots of its block edges with it. -/
theorem collectInode_vacates {t : InodeId} {e : EdgeId} (he : e ∈ SetIndex.members g.inodePointsTo t) :
    (g.collectInode t).edges.data (idToArena e) = none :=
  foldl_releaseBlockEdge_vacates (SetIndex.members g.inodePointsTo t).toList
    (.inr ⟨e, ExtTreeSet.mem_toList.mpr he, rfl⟩)

/-- Removing the last name of an inode does so. -/
theorem unlink_vacates {d : DirId} {n : String} {e x : EdgeId} {t : InodeId} {m : String} {inode : Inode}
    (now : Nat → Timestamp) (hcap : g.requireCap Rights.write = .ok ()) (hn : UserName n)
    (hdir : d ∈ g.dirContains) (hfind : ((g.dirEntries d).find? fun entry => entry.2.2 = n) = some (e, t, m))
    (hinode : g.getInode t = some inode) (hkind : inode.vtype ≠ .directory)
    (hlast : decrement32 inode.linkCount = 0) (hx : x ∈ SetIndex.members g.inodePointsTo t) :
    ((Op.unlink d n).apply now g).2.edges.data (idToArena x) = none := by
  have heq : unlink now d n g = (g.dropLastName e d t).settle d (-1) (now 0) .unlink t n () := by
    unfold unlink
    rw [hcap]
    dsimp only
    rw [if_neg (not_or.mpr hn), if_neg (not_not.mpr hdir), hfind]
    dsimp only
    rw [hinode]
    dsimp only
    rw [if_neg hkind, if_pos hlast]
    rfl
  obtain ⟨quotas, provLog, hsettled⟩ := settle_snd (g.dropLastName e d t) d (-1) (now 0) .unlink t n ()
  obtain ⟨_, _, _, _, hframe⟩ := dropName_frame (g := g) e d t
  rw [Op.apply, Prod.map_snd, heq, hsettled]
  refine collectInode_vacates (g := g.dropName e d t) ?_
  rw [hframe]
  exact hx

/-- The entries of a directory whose edges are stored are read as before. -/
theorem Padded.dirEntries {t : InodeId} {n : Nat} {g₀ : TypeGraph} (h : Padded t n g₀ g) {d : DirId}
    (hlisted : ∀ e ∈ (SetIndex.members g₀.dirContains d).toList, (g₀.getEdge e).isSome = true) :
    g.dirEntries d = g₀.dirEntries d := by
  unfold TypeGraph.dirEntries
  rw [h.sets]
  refine List.filterMap_congr fun e he => ?_
  obtain ⟨v, hv⟩ := Option.isSome_iff_exists.mp (hlisted e he)
  have hkept : g.getEdge e = some v := by
    rw [TypeGraph.getEdge, Arena.get_eq_data] at hv ⊢
    exact h.stored hv
  rw [hkept, hv]

/-- An inode that was given blocks and loses its last name empties the slots of the ids issued meanwhile. -/
theorem Padded.unlink_vacates {t : InodeId} {n k : Nat} {g₀ : TypeGraph} (h : Padded t n g₀ g) (hk : k < n)
    {d : DirId} {name : String} {e : EdgeId} {inode : Inode} (now : Nat → Timestamp)
    (hcap : g₀.requireCap Rights.write = .ok ()) (hn : UserName name) (hdir : d ∈ g₀.dirContains)
    (hlisted : ∀ e ∈ (SetIndex.members g₀.dirContains d).toList, (g₀.getEdge e).isSome = true)
    (hfind : ((g₀.dirEntries d).find? fun entry => entry.2.2 = name) = some (e, t, name))
    (hinode : g₀.getInode t = some inode) (hkind : inode.vtype ≠ .directory)
    (hlast : decrement32 inode.linkCount = 0) :
    ((Op.unlink d name).apply now g).2.edges.data (idToArena (g₀.nextEdge + k)) = none := by
  have hcap' : g.requireCap Rights.write = .ok () := (h.requireCap _).trans hcap
  have hdir' : d ∈ g.dirContains := h.sets ▸ hdir
  have hinode' : g.getInode t = some inode := by
    rw [TypeGraph.getInode, h.inodes]
    exact hinode
  rw [← h.dirEntries hlisted] at hfind
  exact SotFs.unlink_vacates now hcap' hn hdir' hfind hinode' hkind hlast (h.listed k hk)

end Vacated

/-- A list of calls is a sequence. -/
theorem Calls.of_list {now : Nat → Timestamp} (ops : List Op) : ∀ {g : TypeGraph},
    Calls (fun _ _ _ => True) g (g.calls now ops) := by
  induction ops with
  | nil => exact .refl
  | cons op ops ih => exact .head (.call now op trivial) ih

/-- Privilege separation. Whatever sequence of calls is made in the state of a run under a capability without
    the grant right, capabilities, ACLs, quota limits and the owner and mode of the inodes that stay are
    the same at its end, and so are the grant edges as long as every edge id that a call may issue is below
    2^32. A call whose right the context lacks fails and does nothing, and so does a sequence of such
    calls. -/
theorem privilege_separation {allowed : TypeGraph → Op → TypeGraph → Prop} {g : TypeGraph}
    (hg : Run allowed g) :
    (g.Lacks Rights.grant →
      (∀ g', Calls (fun _ _ _ => True) g g' → SameAuthority g g') ∧
        ∀ g', Calls (fun g op _ => op.IdsFit g) g g' → SameGrants g g') ∧
    (∀ (op : Op) now, g.Lacks op.right → ∃ e, op.apply now g = (.err e, g)) ∧
    ∀ g', Calls (fun g op _ => g.Lacks op.right) g g' → g' = g := by
  refine ⟨fun hlacks => ⟨?_, fun g' hcalls => hg.sameGrants hlacks hcalls⟩,
    fun op now hlacks => hlacks.refused op now, ?_⟩
  · intro g' hcalls
    obtain ⟨hauth, hattr⟩ := Calls.authority hlacks hcalls
    exact hg.sameAuthority hauth hattr
  · intro g' hcalls
    induction hcalls with
    | refl => rfl
    | tail _ hstep ih =>
        subst ih
        obtain ⟨now, op, hlacks⟩ := hstep
        obtain ⟨e, he⟩ := TypeGraph.Lacks.refused _ now hlacks
        rw [he]

/-- Under the capability that an ACL entry "rw" made: a file is made, written and removed, and a change of
    mode is refused. -/
theorem privilege_separation_writer :
    let g := ((TypeGraph.new 0).calls (fun _ => 0) [.createFile 1 "a" 0 0 .fileDefault,
      .setacl 2 [⟨.user, 7, ⟨6⟩⟩], .setQuota 1 10 0]).setCapCtx ⟨some 1, 0⟩
    let g' := g.calls (fun _ => 0) [.createFile 1 "b" 7 7 .fileDefault, .writeData 2 0 [1], .unlink 1 "b"]
    SameAuthority g g' ∧ SameGrants g g' ∧ ∃ e, (Op.chmod 2 0).apply (fun _ => 0) g' = (.err e, g') := by
  intro g g'
  have hreach : Reachable g := .setCapCtx _ (Run.calls _ (.new 0) (by decide))
  have hlacks : g.Lacks Rights.grant := by
    refine ⟨1, rfl, ?_⟩
    have hbits : ∀ cap ∈ g.getCap 1, cap.rights.contains Rights.grant = false := by decide
    exact fun cap hcap => hbits cap hcap
  have hfits : Calls (fun g op _ => op.IdsFit g) g g' :=
    ReflTransGen.refl.tail (.call _ _ (by decide)) |>.tail (.call _ _ (by decide))
      |>.tail (.call _ _ (by decide))
  have hany : Calls (fun _ _ _ => True) g g' :=
    ReflTransGen.refl.tail (.call _ _ trivial) |>.tail (.call _ _ trivial) |>.tail (.call _ _ trivial)
  have hin : Calls InCapacityCall g g' :=
    ReflTransGen.refl.tail (.call _ _ (by decide)) |>.tail (.call _ _ (by decide))
      |>.tail (.call _ _ (by decide))
  obtain ⟨hauthority, hgrants⟩ := (privilege_separation hreach).1 hlacks
  have hlacks' : g'.Lacks Rights.grant := hlacks.of_authority (Calls.authority hlacks hany).1
  exact ⟨hauthority g' hany, hgrants g' hfits,
    (privilege_separation (hreach.trans hin)).2.1 (.chmod 2 0) _ hlacks'⟩

/-- Files a and b, an ACL on a that grants user 7 reading and writing, and this capability in force. -/
def grantedToWriter : TypeGraph :=
  ((TypeGraph.new 0).calls (fun _ => 0) [.createFile 1 "a" 0 0 .fileDefault,
    .createFile 1 "b" 0 0 .fileDefault, .setacl 2 [⟨.user, 7, ⟨6⟩⟩]]).setCapCtx ⟨some 1, 0⟩

/-- Blocks are written to b until one of their ids has the slot of the grant, then b is unlinked. -/
theorem grantedToWriter_unlink {n k : Nat} (hk : k < n) (hslot : idToArena (5 + k) = 4) :
    ¬ SameGrants grantedToWriter (grantedToWriter.calls (fun _ => 0)
      (List.replicate n (.writeBlock 3 0 0 1) ++ [.unlink 1 "b"])) := by
  intro hsame
  have hpadded : Padded 3 n grantedToWriter
      (grantedToWriter.calls (fun _ => 0) (List.replicate n (.writeBlock 3 0 0 1))) :=
    Padded.calls (by decide) (by decide) 0 0 1 n
  obtain ⟨i, hi, hkind, hlast⟩ : ∃ i, grantedToWriter.getInode 3 = some i ∧ i.vtype ≠ .directory ∧
      decrement32 i.linkCount = 0 := ⟨_, rfl, by decide, by decide⟩
  have hgone := hpadded.unlink_vacates hk (d := 1) (e := 3) (fun _ => 0) (by decide)
    (show UserName "b" by decide) (by decide) (by decide) (by decide) hi hkind hlast
  have hgrant : grantedToWriter.edges.get 4 = some (.grants 4 1 2 ⟨3⟩) := by decide
  have hkept := (hsame 4 4 1 2 ⟨3⟩).mpr hgrant
  rw [Arena.get_eq_data, TypeGraph.calls, List.foldl_append] at hkept
  have hnext : grantedToWriter.nextEdge = 5 := by decide
  rw [hnext, hslot] at hgone
  exact absurd (hgone.symm.trans hkept) (by simp)

/-- A writer takes a grant away: after 2^32 blocks in b one of the ids has the slot of the grant edge on a, and
    removing b empties that slot. -/
theorem grants_removed_by_writer :
    Reachable grantedToWriter ∧
      (∃ cap, grantedToWriter.capCtx.capId = some 1 ∧ grantedToWriter.getCap 1 = some cap ∧
        cap.rights.contains Rights.write = true ∧ cap.rights.contains Rights.grant = false) ∧
      Calls (fun _ _ _ => True) grantedToWriter (grantedToWriter.calls (fun _ => 0)
        (List.replicate (2 ^ 32) (.writeBlock 3 0 0 1) ++ [.unlink 1 "b"])) ∧
      ¬ SameGrants grantedToWriter (grantedToWriter.calls (fun _ => 0)
        (List.replicate (2 ^ 32) (.writeBlock 3 0 0 1) ++ [.unlink 1 "b"])) := by
  have hreach : Reachable grantedToWriter := .setCapCtx _ (Run.calls _ (.new 0) (by decide))
  have hlast : 2 ^ 32 - 1 < 2 ^ 32 := by norm_num
  have hslot : idToArena (5 + (2 ^ 32 - 1)) = 4 := by norm_num [idToArena]
  exact ⟨hreach, ⟨⟨1, ⟨3⟩, 0⟩, by decide, by decide, by decide, by decide⟩, Calls.of_list _,
    grantedToWriter_unlink hlast hslot⟩

end SotFs
