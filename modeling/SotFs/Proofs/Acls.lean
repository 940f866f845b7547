/-
Module: SotFs.Proofs.Acls
Layer: Proofs
Purpose: ACLs and the capability graph. The grants into an inode whose ACL was set are its entries that are no
  mask and allow something, one by one: setacl takes the old grants of that inode with their capabilities and
  mints one of each for every such entry, and no other call touches any. Each capability carries the rights of
  its one grant, which are those the entry allows under the mask.
Trusted boundary: none
Main exports: AclEntry.Allows, grantedEntries, TypeGraph.GrantList, AclsGranted, acls_granted
-/
import SotFs.Proofs.Authority

namespace SotFs

open Std (ExtTreeMap ExtTreeSet)
open Relation Foundation

/-! ### Rights -/

/-- Whether an entry of an ACL allows what a permission bit stands for: the entry has the bit, and where the
    mask applies, so does the first mask entry. -/
def AclEntry.Allows (entries : List AclEntry) (entry : AclEntry) (bit : UInt16) : Prop :=
  entry.permissions.mode &&& bit ≠ 0 ∧
    (entry.tag = .user ∨ entry.tag = .group ∨ entry.tag = .groupObj →
      ∀ m, entries.find? (fun e => e.tag = .mask) = some m → m.permissions.mode &&& bit ≠ 0)

/-- The entries that give rise to a grant. -/
def grantedBy (mask : Option Rights) (entries : List AclEntry) : List AclEntry :=
  entries.filter fun e => ¬ (e.tag = .mask ∨ (effectiveRights mask e).bits = 0)

/-- The entries of an ACL that are no mask and have rights. -/
abbrev grantedEntries (entries : List AclEntry) : List AclEntry := grantedBy (aclMask entries) entries

theorem Rights.contains_restrict (r m : Rights) (bit : UInt8) :
    (r.restrict m).contains bit = (r.contains bit && m.contains bit) := by
  unfold Rights.restrict Rights.contains
  rw [Bool.eq_iff_iff, Bool.and_eq_true]
  simp only [beq_iff_eq]
  constructor
  · intro hboth
    constructor
    · calc r.bits &&& bit = r.bits &&& (r.bits &&& m.bits &&& bit) := by rw [hboth]
        _ = r.bits &&& m.bits &&& bit := by rw [← UInt8.and_assoc, ← UInt8.and_assoc, UInt8.and_self]
        _ = bit := hboth
    · calc m.bits &&& bit = m.bits &&& (m.bits &&& r.bits &&& bit) := by rw [UInt8.and_comm m.bits r.bits, hboth]
        _ = m.bits &&& r.bits &&& bit := by rw [← UInt8.and_assoc, ← UInt8.and_assoc, UInt8.and_self]
        _ = bit := by rw [UInt8.and_comm m.bits r.bits, hboth]
  · rintro ⟨hr, hm⟩
    rw [UInt8.and_assoc, hm, hr]

theorem permsToRights_contains (p : Permissions) :
    (permsToRights p).contains Rights.read = decide (p.mode &&& 4 ≠ 0) ∧
    (permsToRights p).contains Rights.write = decide (p.mode &&& 2 ≠ 0) ∧
    (permsToRights p).contains Rights.execute = decide (p.mode &&& 1 ≠ 0) ∧
    (permsToRights p).contains Rights.grant = false ∧ (permsToRights p).contains Rights.revoke = false := by
  unfold permsToRights
  by_cases hread : p.mode &&& 4 = 0 <;> by_cases hwrite : p.mode &&& 2 = 0 <;>
    by_cases hexec : p.mode &&& 1 = 0 <;> simp [hread, hwrite, hexec] <;> decide

/-- Where a right of an entry and of the mask is a permission bit, the entry grants the right if it allows
    the bit. -/
theorem effectiveRights_contains {right : UInt8} {bit : UInt16}
    (hbit : ∀ p, (permsToRights p).contains right = decide (p.mode &&& bit ≠ 0)) (entries : List AclEntry)
    (entry : AclEntry) :
    (effectiveRights (aclMask entries) entry).contains right = true ↔ entry.Allows entries bit := by
  unfold effectiveRights AclEntry.Allows aclMask
  cases entry.tag with
  | user | group | groupObj =>
      cases entries.find? fun e => e.tag = .mask with
      | none => simp [hbit]
      | some m => simp [Rights.contains_restrict, hbit]
  | userObj | mask | other => simp [hbit]

/-- No entry of an ACL grants the right to grant or to revoke. -/
theorem effectiveRights_plain (mask : Option Rights) (entry : AclEntry) :
    (effectiveRights mask entry).contains Rights.grant = false ∧
      (effectiveRights mask entry).contains Rights.revoke = false := by
  obtain ⟨_, _, _, hgrant, hrevoke⟩ := permsToRights_contains entry.permissions
  unfold effectiveRights
  dsimp only
  split
  · simp [Rights.contains_restrict, hgrant, hrevoke]
  · simp [Rights.contains_restrict, hgrant, hrevoke]
  · simp [Rights.contains_restrict, hgrant, hrevoke]
  · exact ⟨hgrant, hrevoke⟩

/-! ### Grants into an inode -/

/-- The slot holds a grant edge from a capability to an inode. -/
def TypeGraph.GrantEdge (g : TypeGraph) (e : EdgeId) (c : CapId) (t : InodeId) (r : Rights) : Prop :=
  ∃ id, g.edges.get e = some (.grants id c t r)

/-- The grant edges into an inode, each listed once with its capability and its rights. -/
structure TypeGraph.GrantList (g : TypeGraph) (t : InodeId) (es : List (EdgeId × CapId × Rights)) : Prop where
  nodup : (es.map Prod.fst).Nodup
  mem : ∀ e c r, g.GrantEdge e c t r ↔ (e, c, r) ∈ es

/-- The edge itself, unless it is a grant into one inode. -/
def Edge.besides (t : InodeId) : Edge → Option Edge
  | .grants id src tgt rights => if tgt = t then none else some (.grants id src tgt rights)
  | v => some v

/-- The same edges but for the grants into one inode. -/
def SameBesides (t : InodeId) (g g' : TypeGraph) : Prop :=
  g'.edges.view (Edge.besides t) = g.edges.view (Edge.besides t)

/-- Every grant comes from a live capability that carries its rights, and allows neither to grant nor to
    revoke. -/
structure TypeGraph.CapsMatch (g : TypeGraph) : Prop where
  cap : ∀ {e c t r}, g.GrantEdge e c t r → g.caps.get c = some ⟨c, r, 0⟩
  plain : ∀ {e c t r}, g.GrantEdge e c t r →
    r.contains Rights.grant = false ∧ r.contains Rights.revoke = false

section Grants

variable {g g' g'' : TypeGraph} {t : InodeId} {e : EdgeId} {c : CapId} {r : Rights}

theorem grantEdge_iff : g.GrantEdge e c t r ↔ g.edges.view Edge.grant e = some (c, t, r) := by
  unfold TypeGraph.GrantEdge
  rw [Arena.get_eq_data, Arena.view_eq_some]
  constructor
  · rintro ⟨id, he⟩
    exact ⟨_, he, rfl⟩
  · rintro ⟨v, hv, hgrant⟩
    cases v with
    | grants id src tgt rights =>
        cases hgrant
        exact ⟨id, hv⟩
    | _ => cases hgrant

theorem Edge.besides_eq_some {v w : Edge} :
    Edge.besides t v = some w ↔ v = w ∧ ∀ id c r, w ≠ .grants id c t r := by
  cases v with
  | grants id src tgt rights =>
      change (if tgt = t then none else some (Edge.grants id src tgt rights)) = some w ↔ _
      split
      · rename_i htgt
        subst htgt
        constructor
        · rintro ⟨⟩
        · rintro ⟨rfl, hno⟩
          exact absurd rfl (hno id src rights)
      · rename_i htgt
        rw [Option.some.injEq]
        refine ⟨?_, And.left⟩
        rintro rfl
        refine ⟨rfl, ?_⟩
        rintro id' c' r' heq
        cases heq
        exact htgt rfl
  | _ =>
      change some _ = some w ↔ _
      rw [Option.some.injEq]
      refine ⟨?_, And.left⟩
      rintro rfl
      refine ⟨rfl, ?_⟩
      rintro _ _ _ ⟨⟩

/-- An edge that is no grant into the inode is there before and after. -/
theorem SameBesides.get_iff (h : SameBesides t g g') {v : Edge} (hv : ∀ id c r, v ≠ .grants id c t r) :
    g'.edges.get e = some v ↔ g.edges.get e = some v := by
  have hview : ∀ {g : TypeGraph}, g.edges.view (Edge.besides t) e = some v ↔ g.edges.get e = some v := by
    intro g
    rw [Arena.view_eq_some, Arena.get_eq_data]
    constructor
    · rintro ⟨w, hw, hbesides⟩
      rw [hw, (Edge.besides_eq_some.mp hbesides).1]
    · intro hdata
      exact ⟨v, hdata, Edge.besides_eq_some.mpr ⟨rfl, hv⟩⟩
  rw [← hview, ← hview, h]

theorem grantEdge_iff_asGrant :
    g.GrantEdge e c t r ↔ ∃ id, g.edges.view Edge.asGrant e = some (.grants id c t r) := by
  refine exists_congr fun id => ?_
  rw [Arena.view_eq_some, Arena.get_eq_data]
  constructor
  · intro hdata
    exact ⟨_, hdata, rfl⟩
  · rintro ⟨v, hv, hgrant⟩
    cases v with
    | grants id' src tgt rights =>
        cases hgrant
        exact hv
    | _ => cases hgrant

/-- Grants into other inodes stay. -/
theorem SameBesides.grantEdge_iff (h : SameBesides t g g') {t' : InodeId} (ht : t' ≠ t) :
    g'.GrantEdge e c t' r ↔ g.GrantEdge e c t' r := by
  refine exists_congr fun id => h.get_iff ?_
  rintro id' c' r' heq
  cases heq
  exact ht rfl

/-- Grants that are elsewhere are listed as before. -/
theorem TypeGraph.GrantList.of_besides {t' : InodeId} {es : List (EdgeId × CapId × Rights)}
    (hlist : g.GrantList t es) (hsame : SameBesides t' g g') (ht : t ≠ t') : g'.GrantList t es where
  nodup := hlist.nodup
  mem e c r := (hsame.grantEdge_iff ht).trans (hlist.mem e c r)

/-! ### One entry -/

/-- A new grant is the only change to the grants. -/
theorem Inv.attachGrant_edge (h : Inv g) (he : g.nextEdge < EDGE_CAPACITY) {t' : InodeId} {r' : Rights} :
    (g.attachGrant t r).GrantEdge e c t' r' ↔
      (e = g.nextEdge ∧ c = g.nextCap ∧ t' = t ∧ r' = r) ∨ g.GrantEdge e c t' r' := by
  have hview : (g.attachGrant t r).edges.view Edge.grant =
      Function.update (g.edges.view Edge.grant) g.nextEdge (some (g.nextCap, t, r)) :=
    h.view_newEdge_some (f := Edge.grant) he rfl
  rw [grantEdge_iff, grantEdge_iff, hview, Function.update_apply]
  split
  · rename_i heq
    subst heq
    rw [h.view_fresh]
    simp [eq_comm]
  · rename_i hne
    simp [hne]

theorem Inv.attachGrant_caps (h : Inv g) (hc : g.nextCap < NODE_CAPACITY) :
    (g.attachGrant t r).caps.data = Function.update g.caps.data g.nextCap (some ⟨g.nextCap, r, 0⟩) :=
  h.capIds.insert_data hc _

theorem Inv.attachGrant_capsMatch (h : Inv g) (hmatch : g.CapsMatch) (hc : g.nextCap < NODE_CAPACITY)
    (he : g.nextEdge < EDGE_CAPACITY)
    (hplain : r.contains Rights.grant = false ∧ r.contains Rights.revoke = false) :
    (g.attachGrant t r).CapsMatch where
  cap := by
    intro e' c' t' r' hedge
    rw [Arena.get_eq_data, h.attachGrant_caps hc, Function.update_apply]
    rcases (h.attachGrant_edge he).mp hedge with ⟨_, rfl, _, rfl⟩ | hedge
    · rw [if_pos rfl]
    · have hcap := hmatch.cap hedge
      rw [Arena.get_eq_data] at hcap
      rw [if_neg]
      · exact hcap
      · rintro rfl
        rw [h.capIds.fresh le_rfl] at hcap
        cases hcap
  plain := by
    intro e' c' t' r' hedge
    rcases (h.attachGrant_edge he).mp hedge with ⟨_, _, _, rfl⟩ | hedge
    · exact hplain
    · exact hmatch.plain hedge

theorem Inv.attachGrant_list (h : Inv g) (he : g.nextEdge < EDGE_CAPACITY)
    {es : List (EdgeId × CapId × Rights)} (hlist : g.GrantList t es) :
    (g.attachGrant t r).GrantList t (es ++ [(g.nextEdge, g.nextCap, r)]) where
  nodup := by
    have hnew : g.nextEdge ∉ es.map Prod.fst := by
      intro hmem
      obtain ⟨⟨e', c', r'⟩, hmem, rfl⟩ := List.mem_map.mp hmem
      have hedge := grantEdge_iff.mp ((hlist.mem _ _ _).mpr hmem)
      rw [h.view_fresh] at hedge
      cases hedge
    rw [List.map_append, List.map_singleton, ← List.concat_eq_append]
    exact hlist.nodup.concat hnew
  mem := by
    intro e' c' r'
    rw [h.attachGrant_edge he, hlist.mem, List.mem_append, List.mem_singleton, Prod.mk.injEq, Prod.mk.injEq,
      or_comm]
    simp

theorem Inv.attachGrant_besides (h : Inv g) (he : g.nextEdge < EDGE_CAPACITY) :
    SameBesides t g (g.attachGrant t r) :=
  h.view_newEdge he (if_pos rfl)

/-! ### A whole ACL -/

/-- The loop over the new entries mints one grant for each entry that has rights. -/
theorem Inv.foldl_grantEntry_list (mask : Option Rights) (entries : List AclEntry) :
    ∀ {g : TypeGraph} (es : List (EdgeId × CapId × Rights)), Inv g → g.CapsMatch → g.GrantList t es →
      (entries.foldl (TypeGraph.grantEntry t mask) g).nextCap ≤ NODE_CAPACITY →
      (entries.foldl (TypeGraph.grantEntry t mask) g).nextEdge ≤ EDGE_CAPACITY →
      (entries.foldl (TypeGraph.grantEntry t mask) g).CapsMatch ∧
      SameBesides t g (entries.foldl (TypeGraph.grantEntry t mask) g) ∧
      ∃ new, (entries.foldl (TypeGraph.grantEntry t mask) g).GrantList t (es ++ new) ∧
        new.map (fun w => w.2.2) = (grantedBy mask entries).map (effectiveRights mask) := by
  induction entries with
  | nil => exact fun _ _ hmatch hlist _ _ => ⟨hmatch, rfl, [], by simpa using hlist, rfl⟩
  | cons entry entries ih =>
      intro g es h hmatch hlist hcap hedge
      obtain ⟨hcapLe, hedgeLe⟩ := foldl_grantEntry_le t mask entries (TypeGraph.grantEntry t mask g entry)
      rw [List.foldl_cons] at hcap hedge ⊢
      have hcap' := hcapLe.trans hcap
      have hedge' := hedgeLe.trans hedge
      unfold grantedBy at ih ⊢
      rw [grantEntry_eq] at hcap hedge hcap' hedge' ⊢
      by_cases hskip : entry.tag = .mask ∨ (effectiveRights mask entry).bits = 0
      · rw [if_pos hskip] at hcap hedge ⊢
        rw [List.filter_cons_of_neg (by rw [decide_not, decide_eq_true hskip]; exact Bool.false_ne_true)]
        exact ih es h hmatch hlist hcap hedge
      · rw [if_neg hskip] at hcap hedge hcap' hedge' ⊢
        rw [List.filter_cons_of_pos (by simpa using hskip)]
        obtain ⟨hmatch', hbesides, new, hnew, hrights⟩ := ih _ (h.attachGrant hcap' hedge' t _)
          (h.attachGrant_capsMatch hmatch hcap' hedge' (effectiveRights_plain mask entry))
          (h.attachGrant_list hedge' hlist) hcap hedge
        refine ⟨hmatch', hbesides.trans (h.attachGrant_besides hedge'),
          (g.nextEdge, g.nextCap, effectiveRights mask entry) :: new, ?_, ?_⟩
        · rw [List.append_cons]
          exact hnew
        · rw [List.map_cons, List.map_cons, hrights]

/-- Removing capabilities leaves the others as they are. -/
theorem foldl_removeCap_caps (cs : List CapId) : ∀ {g : TypeGraph} (s : Nat),
    (cs.foldl TypeGraph.removeCap g).caps.data s = none ∨
      (cs.foldl TypeGraph.removeCap g).caps.data s = g.caps.data s := by
  induction cs with
  | nil => exact fun _ => .inr rfl
  | cons c cs ih =>
      intro g s
      have hstep : (g.removeCap c).caps.data s = none ∨ (g.removeCap c).caps.data s = g.caps.data s := by
        change (g.caps.remove (idToArena c)).2.data s = none ∨
          (g.caps.remove (idToArena c)).2.data s = g.caps.data s
        rw [Arena.data_remove, Function.update_apply]
        split
        · exact .inl rfl
        · exact .inr rfl
      rw [List.foldl_cons]
      rcases ih (g := g.removeCap c) s with hnone | hsame
      · exact .inl hnone
      · rw [hsame]
        exact hstep

theorem dropGrants_caps (s : Nat) :
    (g.dropGrants t).caps.data s = none ∨ (g.dropGrants t).caps.data s = g.caps.data s := by
  obtain ⟨_, _, _, hpurged⟩ := foldl_purgeGrant_frame (g.grantsInto t) g []
  unfold TypeGraph.dropGrants
  dsimp only
  rw [hpurged]
  exact foldl_removeCap_caps _ s

/-- Dropping the grants into an inode drops exactly these. -/
theorem Inv.dropGrants_edge (h : Inv g) {t' : InodeId} :
    (g.dropGrants t).GrantEdge e c t' r ↔ t' ≠ t ∧ g.GrantEdge e c t' r := by
  obtain ⟨edges, caps, capGrants, heq, _, _, _, hdata⟩ := h.dropGrants_eq t
  rw [heq, grantEdge_iff, grantEdge_iff, Arena.view, hdata e]
  by_cases hmem : e ∈ g.grantsInto t
  · obtain ⟨c₀, r₀, he⟩ := h.mem_grantsInto.mp hmem
    have hview : g.edges.view Edge.grant e = some (c₀, t, r₀) := h.grant_iff.mpr he
    rw [if_pos hmem, hview]
    constructor
    · rintro ⟨⟩
    · rintro ⟨ht, hedge⟩
      cases hedge
      exact absurd rfl ht
  · rw [if_neg hmem]
    refine ⟨fun hedge => ⟨?_, hedge⟩, fun hedge => hedge.2⟩
    rintro rfl
    exact hmem (h.mem_grantsInto.mpr ⟨c, r, h.grant_iff.mp hedge⟩)

theorem Inv.dropGrants_capsMatch (h : Inv g) (hmatch : g.CapsMatch) : (g.dropGrants t).CapsMatch where
  cap := by
    intro e' c' t' r' hedge
    have hold := hmatch.cap (h.dropGrants_edge.mp hedge).2
    obtain ⟨cap, hlive⟩ := (h.dropGrants t).side.grants.live (grantEdge_iff.mp hedge)
    rw [Arena.get_eq_data] at hold ⊢
    rcases dropGrants_caps (g := g) (t := t) c' with hnone | hsame
    · rw [hnone] at hlive
      cases hlive
    · rw [hsame, hold]
  plain hedge := hmatch.plain (h.dropGrants_edge.mp hedge).2

theorem Inv.dropGrants_list (h : Inv g) : (g.dropGrants t).GrantList t [] where
  nodup := List.nodup_nil
  mem e c r := by
    rw [h.dropGrants_edge]
    simp

theorem Inv.dropGrants_besides (h : Inv g) : SameBesides t g (g.dropGrants t) := by
  obtain ⟨edges, caps, capGrants, heq, _, _, _, hdata⟩ := h.dropGrants_eq t
  rw [heq]
  refine view_clear _ hdata ?_
  intro x hx
  obtain ⟨c', r', hx⟩ := h.mem_grantsInto.mp hx
  rw [hx]
  exact if_pos rfl

/-- A setacl that goes through leaves the grants that its entries ask for, and no others of its inode. -/
theorem setacl_list {now : Nat → Timestamp} {entries : List AclEntry} (h : Inv g) (hmatch : g.CapsMatch)
    (hacc : Accepted g (setacl now t entries g).2) (hok : (setacl now t entries g).1 = .ok ()) :
    (setacl now t entries g).2.CapsMatch ∧ SameBesides t g (setacl now t entries g).2 ∧
      (setacl now t entries g).2.acls = g.acls.insert t entries ∧
      ∃ es, (setacl now t entries g).2.GrantList t es ∧
        es.map (fun w => w.2.2) = (grantedEntries entries).map (effectiveRights (aclMask entries)) := by
  rcases setacl_cases now t entries g with
    ⟨o, hfail, heq⟩ | ⟨_, _, heq⟩
  · rw [heq] at hok
    exact absurd hok (hfail ())
  · rw [heq] at hacc ⊢
    have hinv : Inv { g.dropGrants t with acls := (g.dropGrants t).acls.insert t entries } :=
      (h.dropGrants t).withSides _ _ _ _ _ _
    obtain ⟨hcaps, hbesides, new, hlist, hrights⟩ := Inv.foldl_grantEntry_list (t := t) (aclMask entries) entries
      [] hinv
      ⟨(h.dropGrants_capsMatch hmatch).cap, (h.dropGrants_capsMatch hmatch).plain⟩
      ⟨List.nodup_nil, h.dropGrants_list.mem⟩ (hacc.nextCap_le h.capIds.next_le)
      (hacc.nextEdge_le h.edgeIds.next_le)
    refine ⟨⟨hcaps.cap, hcaps.plain⟩, hbesides.trans h.dropGrants_besides, ?_, new, ⟨hlist.nodup, hlist.mem⟩,
      hrights⟩
    obtain ⟨_, _, _, _, _, _, hgranted⟩ := replaceGrants_frame (g := g) t entries
    rw [hgranted]
    rfl

end Grants

/-! ### Runs -/

/-- Capabilities match their grants, and the grants into an inode are those its ACL asks for. -/
structure TypeGraph.AclsStored (g : TypeGraph) : Prop where
  caps : g.CapsMatch
  listed : ∀ t entries, g.acls[t]? = some entries → ∃ es, g.GrantList t es ∧
    es.map (fun w => w.2.2) = (grantedEntries entries).map (effectiveRights (aclMask entries))

/-- Two states that differ in the ids of the grants into an inode and of their capabilities, and in the
    record that the call leaves in the log, if there is one. -/
structure SameButIds (t : InodeId) (g g' : TypeGraph) : Prop where
  rest : g' = { g with edges := g'.edges, caps := g'.caps, capGrants := g'.capGrants,
                       nextCap := g'.nextCap, nextEdge := g'.nextEdge, provLog := g'.provLog }
  log : ∃ record, g'.provLog = g.provLog.map fun log => log ++ [record]
  edges : ∀ e v, (∀ id c r, v ≠ .grants id c t r) → (g'.edges.get e = some v ↔ g.edges.get e = some v)
  caps : ∀ c, (∀ e r, ¬ g.GrantEdge e c t r) → (∀ e r, ¬ g'.GrantEdge e c t r) →
    g'.caps.get c = g.caps.get c
  grants : ∃ es es', g.GrantList t es ∧ g'.GrantList t es' ∧
    es'.map (fun w => w.2.2) = es.map (fun w => w.2.2)

/-- ACLs materialized as grants, in one state and across a setacl from it. -/
structure AclsGranted (g : TypeGraph) : Prop where
  /-- The grants into an inode are, one by one, the entries of its ACL that are no mask and have rights. -/
  listed : ∀ t entries, g.acls[t]? = some entries → ∃ es, g.GrantList t es ∧
    es.map (fun w => w.2.2) = (grantedEntries entries).map (effectiveRights (aclMask entries))
  /-- The rights of an entry are its permission bits under the mask. -/
  effective : ∀ (entries : List AclEntry) entry,
    ((effectiveRights (aclMask entries) entry).contains Rights.read = true ↔ entry.Allows entries 4) ∧
    ((effectiveRights (aclMask entries) entry).contains Rights.write = true ↔ entry.Allows entries 2) ∧
    ((effectiveRights (aclMask entries) entry).contains Rights.execute = true ↔ entry.Allows entries 1)
  /-- A grant comes from a live capability with the same rights, which is indexed and has no other. -/
  own : ∀ e c t r, g.GrantEdge e c t r → g.caps.get c = some ⟨c, r, 0⟩ ∧ g.capGrants[c]? = some e ∧
    r.contains Rights.grant = false ∧ r.contains Rights.revoke = false
  used : ∀ c cap, g.caps.get c = some cap → ∃! e, ∃ t r, g.GrantEdge e c t r
  /-- setacl stores the ACL of its inode and leaves the others, their grants and capabilities alone. -/
  set : ∀ now t entries, Accepted g (setacl now t entries g).2 → (setacl now t entries g).1 = .ok () →
    (setacl now t entries g).2.acls[t]? = some entries ∧
    ∀ t', t' ≠ t → (setacl now t entries g).2.acls[t']? = g.acls[t']? ∧
      ∀ e c r, ((setacl now t entries g).2.GrantEdge e c t' r ↔ g.GrantEdge e c t' r) ∧
        (g.GrantEdge e c t' r → (setacl now t entries g).2.caps.get c = g.caps.get c)
  refused : ∀ now t entries, (setacl now t entries g).1 ≠ .ok () → (setacl now t entries g).2 = g
  kept : ∀ now (op : Op), (∀ t entries, op ≠ .setacl t entries) → (op.apply now g).2.acls = g.acls
  /-- Setting the ACL that is set already. -/
  again : ∀ now t entries, g.acls[t]? = some entries → Accepted g (setacl now t entries g).2 →
    (setacl now t entries g).1 = .ok () → SameButIds t g (setacl now t entries g).2

section Runs

variable {now : Nat → Timestamp} {g g' : TypeGraph} {t : InodeId}

theorem TypeGraph.AclsStored.new (now : Timestamp) : (TypeGraph.new now).AclsStored := by
  have hnone : ∀ {e c t r}, ¬ (TypeGraph.new now).GrantEdge e c t r := by
    intro e c t r hedge
    rw [grantEdge_iff, new_view now (f := Edge.grant) rfl] at hedge
    cases hedge
  refine ⟨⟨fun hedge => absurd hedge hnone, fun hedge => absurd hedge hnone⟩, ?_⟩
  intro t entries hacl
  change (∅ : ExtTreeMap InodeId (List AclEntry))[t]? = some entries at hacl
  rw [ExtTreeMap.getElem?_empty] at hacl
  cases hacl

/-- Calls other than setacl leave all of it alone. -/
theorem TypeGraph.AclsStored.of_other {op : Op} (h : Inv g) (hstored : g.AclsStored)
    (hcall : InCapacityCall g op (op.apply now g).2) (hop : ∀ t entries, op ≠ .setacl t entries) :
    (op.apply now g).2.AclsStored := by
  obtain ⟨hacls, hcaps, _, hindex⟩ := (op.holdings_kept now g).grants hop
  change (op.apply now g).2.acls = g.acls at hacls
  change (op.apply now g).2.caps = g.caps at hcaps
  have hnext : (op.apply now g).2.nextEdge ≤ 2 ^ 32 := (hcall.2.fits h).nextEdge_le.trans (by decide)
  have hview : (op.apply now g).2.grantEdges = g.grantEdges :=
    (((TypeGraph.GrantsKept.of_inv h).apply hop) hnext).grants
  have hgrants : ∀ {e c t r}, (op.apply now g).2.GrantEdge e c t r ↔ g.GrantEdge e c t r := by
    intro e c t r
    rw [grantEdge_iff_asGrant, grantEdge_iff_asGrant]
    exact exists_congr fun id => by rw [← TypeGraph.grantEdges, hview, TypeGraph.grantEdges]
  refine ⟨⟨fun hedge => ?_, fun hedge => hstored.caps.plain (hgrants.mp hedge)⟩, ?_⟩
  · rw [hcaps]
    exact hstored.caps.cap (hgrants.mp hedge)
  · intro t entries hacl
    rw [hacls] at hacl
    obtain ⟨es, hlist, hrights⟩ := hstored.listed t entries hacl
    exact ⟨es, ⟨hlist.nodup, fun e c r => hgrants.trans (hlist.mem e c r)⟩, hrights⟩

/-- A setacl that goes through. -/
theorem TypeGraph.AclsStored.of_setacl {entries : List AclEntry} (h : Inv g) (hstored : g.AclsStored)
    (hacc : Accepted g (setacl now t entries g).2) (hok : (setacl now t entries g).1 = .ok ()) :
    (setacl now t entries g).2.AclsStored := by
  obtain ⟨hcaps, hbesides, hacls, es, hlist, hrights⟩ := setacl_list h hstored.caps hacc hok
  refine ⟨hcaps, ?_⟩
  intro t' entries' hacl
  rw [hacls, ExtTreeMap.getElem?_insert] at hacl
  split at hacl
  · rename_i hcmp
    rw [← Std.compare_eq_iff_eq.mp hcmp, ← Option.some.inj hacl]
    exact ⟨es, hlist, hrights⟩
  · rename_i hne
    obtain ⟨es', hlist', hrights'⟩ := hstored.listed t' entries' hacl
    refine ⟨es', hlist'.of_besides hbesides ?_, hrights'⟩
    rintro rfl
    exact hne Std.compare_self

theorem setacl_refused {entries : List AclEntry} (hno : (setacl now t entries g).1 ≠ .ok ()) :
    (setacl now t entries g).2 = g := by
  rcases setacl_cases now t entries g with ⟨o, _, heq⟩ | ⟨_, _, heq⟩
  · rw [heq]
  · rw [heq] at hno
    exact absurd rfl hno

theorem Reachable.aclsStored (hg : Reachable g) : g.AclsStored := by
  induction hg with
  | new now => exact .new now
  | @call g now op hrun hcall ih =>
      by_cases hop : ∃ t entries, op = .setacl t entries
      · obtain ⟨t, entries, rfl⟩ := hop
        rw [Op.apply, Prod.map_snd, id_eq] at hcall ⊢
        by_cases hok : (setacl now t entries g).1 = .ok ()
        · exact ih.of_setacl (Reachable.inv hrun) hcall.2 hok
        · rw [setacl_refused hok]
          exact ih
      · exact ih.of_other (Reachable.inv hrun) hcall fun t entries heq => hop ⟨t, entries, heq⟩
  | setCapCtx ctx _ ih => exact ⟨⟨ih.caps.cap, ih.caps.plain⟩, fun t entries hacl =>
      (ih.listed t entries hacl).imp fun _ h => ⟨⟨h.1.nodup, h.1.mem⟩, h.2⟩⟩
  | enableProvLog _ ih => exact ⟨⟨ih.caps.cap, ih.caps.plain⟩, fun t entries hacl =>
      (ih.listed t entries hacl).imp fun _ h => ⟨⟨h.1.nodup, h.1.mem⟩, h.2⟩⟩
  | disableProvLog _ ih => exact ⟨⟨ih.caps.cap, ih.caps.plain⟩, fun t entries hacl =>
      (ih.listed t entries hacl).imp fun _ h => ⟨⟨h.1.nodup, h.1.mem⟩, h.2⟩⟩

/-- Every live capability has one grant. -/
theorem Inv.grant_of_cap (h : Inv g) {c : CapId} {cap : Capability} (hc : g.caps.get c = some cap) :
    ∃! e, ∃ t r, g.GrantEdge e c t r := by
  rw [Arena.get_eq_data] at hc
  obtain ⟨e, t, r, he⟩ := h.side.grants.used hc
  refine ⟨e, ⟨t, r, grantEdge_iff.mpr he⟩, ?_⟩
  rintro e' ⟨t', r', he'⟩
  exact h.side.grants.index.inj (grantEdge_iff.mp he') he rfl

/-- Setting the same ACL again changes ids only. -/
theorem TypeGraph.AclsStored.again {entries : List AclEntry} (h : Inv g) (hstored : g.AclsStored)
    (hacl : g.acls[t]? = some entries) (h' : Inv (setacl now t entries g).2)
    (hacc : Accepted g (setacl now t entries g).2) (hok : (setacl now t entries g).1 = .ok ()) :
    SameButIds t g (setacl now t entries g).2 := by
  obtain ⟨hcaps, hbesides, _, es', hlist', hrights'⟩ := setacl_list h hstored.caps hacc hok
  obtain ⟨es, hlist, hrights⟩ := hstored.listed t entries hacl
  have hframe : ∃ record, (setacl now t entries g).2.provLog = g.provLog.map (fun log => log ++ [record]) ∧
      (setacl now t entries g).2 =
        { g with edges := (setacl now t entries g).2.edges, caps := (setacl now t entries g).2.caps,
                 capGrants := (setacl now t entries g).2.capGrants,
                 nextCap := (setacl now t entries g).2.nextCap,
                 nextEdge := (setacl now t entries g).2.nextEdge,
                 provLog := (setacl now t entries g).2.provLog } := by
    have hsame : g.acls.insert t entries = g.acls := by
      apply ExtTreeMap.ext_getElem?
      intro t'
      rw [ExtTreeMap.getElem?_insert]
      split
      · rename_i hcmp
        rw [← Std.compare_eq_iff_eq.mp hcmp, hacl]
      · rfl
    rcases setacl_cases now t entries g with
      ⟨o, hfail, heq⟩ | ⟨_, _, heq⟩
    · rw [heq] at hok
      exact absurd hok (hfail ())
    · obtain ⟨_, _, _, hdropped, _⟩ := h.dropGrants_eq t
      obtain ⟨_, _, _, _, _, hgranted⟩ := foldl_grantEntry_frame t (aclMask entries) entries
        (g := { g.dropGrants t with acls := (g.dropGrants t).acls.insert t entries })
      rw [heq, hgranted, hdropped, hsame]
      exact ⟨_, rfl, rfl⟩
  obtain ⟨record, hlog, hrest⟩ := hframe
  refine
    { rest := hrest
      log := ⟨record, hlog⟩
      edges := fun e v hv => hbesides.get_iff hv
      caps := ?_
      grants := ⟨es, es', hlist, hlist', hrights'.trans hrights.symm⟩ }
  intro c hno hno'
  -- a capability without a grant into the inode has one elsewhere, before and after
  have hother : ∀ {g₁ g₂ : TypeGraph} {cap}, Inv g₁ → g₁.CapsMatch → g₂.CapsMatch → (∀ e r, ¬ g₁.GrantEdge e c t r) →
      (∀ {e t' r}, t' ≠ t → g₁.GrantEdge e c t' r → g₂.GrantEdge e c t' r) → g₁.caps.get c = some cap →
        g₂.caps.get c = some cap := by
    intro g₁ g₂ cap h₁ hm₁ hm₂ hno₁ hkept hcap
    obtain ⟨e, ⟨t', r, he⟩, _⟩ := h₁.grant_of_cap hcap
    have ht : t' ≠ t := by
      rintro rfl
      exact hno₁ e r he
    rw [hm₂.cap (hkept ht he), ← hm₁.cap he, hcap]
  apply Option.ext
  intro cap
  constructor
  · exact hother h' hcaps hstored.caps hno' fun ht he => (hbesides.grantEdge_iff ht).mp he
  · exact hother h hstored.caps hcaps hno fun ht he => (hbesides.grantEdge_iff ht).mpr he

/-- In every reachable state the ACLs that were set are materialized as grants. -/
theorem acls_granted (hg : Reachable g) : AclsGranted g where
  listed := hg.aclsStored.listed
  effective entries entry := ⟨effectiveRights_contains (fun p => (permsToRights_contains p).1) entries entry,
    effectiveRights_contains (fun p => (permsToRights_contains p).2.1) entries entry,
    effectiveRights_contains (fun p => (permsToRights_contains p).2.2.1) entries entry⟩
  own e c t r hedge := ⟨hg.aclsStored.caps.cap hedge, hg.inv.side.grants.index.get (grantEdge_iff.mp hedge),
    hg.aclsStored.caps.plain hedge⟩
  used _ _ hc := hg.inv.grant_of_cap hc
  set := by
    intro now t entries hacc hok
    obtain ⟨hcaps, hbesides, hacls, _⟩ := setacl_list hg.inv hg.aclsStored.caps hacc hok
    rw [hacls]
    refine ⟨ExtTreeMap.getElem?_insert_self, ?_⟩
    intro t' ht
    rw [ExtTreeMap.getElem?_insert, if_neg (mt Std.compare_eq_iff_eq.mp (Ne.symm ht))]
    refine ⟨rfl, fun e c r => ⟨hbesides.grantEdge_iff ht, fun hedge => ?_⟩⟩
    rw [hg.aclsStored.caps.cap hedge, hcaps.cap ((hbesides.grantEdge_iff ht).mpr hedge)]
  refused _ _ _ hno := setacl_refused hno
  kept now op hop := ((op.holdings_kept now g).grants hop).1
  again := by
    intro now t entries hacl hacc hok
    have hdirs : (Op.setacl t entries).LiveDirs g := fun d hd => absurd hd List.not_mem_nil
    have hrun : Reachable (setacl now t entries g).2 := .call now (.setacl t entries) hg ⟨hdirs, hacc⟩
    exact hg.aclsStored.again hg.inv hacl hrun.inv hacc hok

/-- A file whose ACL has two named users, one of them masked to nothing, and the same user once more. -/
theorem acls_granted_file : AclsGranted ((TypeGraph.new 0).calls (fun _ => 0)
    [.createFile 1 "a" 0 0 .fileDefault,
      .setacl 2 [⟨.user, 7, ⟨6⟩⟩, ⟨.user, 8, ⟨1⟩⟩, ⟨.mask, 0, ⟨4⟩⟩, ⟨.user, 7, ⟨6⟩⟩]]) :=
  acls_granted (.calls _ (.new 0) (by decide))

end Runs

end SotFs
