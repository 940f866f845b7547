/-
Module: SotFs.Proofs.Attributes
Layer: Proofs
Purpose: Extended attributes as finite maps. A run is followed by one map from namespaces and names to values
  for each inode id: a successful setxattr writes one key of one map, a successful removexattr erases one, and
  nothing else touches any. On every in-capacity run the four calls answer as these maps say, and every stored
  attribute hangs on one edge, from the inode in whose set it is.
Trusted boundary: none
Main exports: AttributeMaps, Op.onAttributes, AttributeRun, AttributesFollow, attributes_follow
-/
import SotFs.Foundation.KeyedRecords
import SotFs.Proofs.Freshness

namespace SotFs

open Std (ExtTreeMap ExtTreeSet)
open Foundation

/-! ### The maps and the runs they follow -/

/-- For every inode id a map from namespace and name to value. -/
abbrev AttributeMaps := InodeId → XAttrNamespace × String → Option (List UInt8)

/-- What a successful call does to the maps. -/
def Op.onAttributes (m : AttributeMaps) : Op → AttributeMaps
  | .setxattr t ns n v => Function.update m t (Function.update (m t) (ns, n) (some v))
  | .removexattr t ns n => Function.update m t (Function.update (m t) (ns, n) none)
  | _ => m

/-- The in-capacity runs, with the maps that their successful calls leave. -/
inductive AttributeRun : TypeGraph → AttributeMaps → Prop where
  | new (now : Timestamp) : AttributeRun (.new now) fun _ _ => none
  | call {g : TypeGraph} {m : AttributeMaps} (now : Nat → Timestamp) (op : Op) (r : Reply) :
      AttributeRun g m → InCapacityCall g op (op.apply now g).2 → (op.apply now g).1 = .ok r →
        AttributeRun (op.apply now g).2 (op.onAttributes m)
  | failed {g : TypeGraph} {m : AttributeMaps} (now : Nat → Timestamp) (op : Op) :
      AttributeRun g m → InCapacityCall g op (op.apply now g).2 → (op.apply now g).1.Failed →
        AttributeRun (op.apply now g).2 m
  | setCapCtx {g : TypeGraph} {m : AttributeMaps} (ctx : CapContext) :
      AttributeRun g m → AttributeRun (g.setCapCtx ctx) m
  | enableProvLog {g : TypeGraph} {m : AttributeMaps} : AttributeRun g m → AttributeRun g.enableProvLog m
  | disableProvLog {g : TypeGraph} {m : AttributeMaps} : AttributeRun g m → AttributeRun g.disableProvLog m

/-- The four calls answer as the maps say, and the attributes hang together. -/
structure AttributesFollow (g : TypeGraph) (m : AttributeMaps) : Prop where
  set : ∀ now t ns n v, g.requireCap Rights.write = .ok () → g.containsInode t = true → v.length ≤ 65536 →
    ∃ x, (setxattr now t ns n v g).1 = .ok x
  tooLarge : ∀ now t ns n v, g.requireCap Rights.write = .ok () → g.containsInode t = true →
    65536 < v.length → (setxattr now t ns n v g).1 = .err (.xattrTooLarge v.length)
  get : ∀ t ns n, g.containsInode t = true → getxattr g t ns n =
    match m t (ns, n) with
    | some v => .ok v
    | none => .err (.xattrNotFound n)
  remove : ∀ now t ns n, g.requireCap Rights.write = .ok () → g.containsInode t = true →
    (removexattr now t ns n g).1 = if (m t (ns, n)).isSome then .ok () else .err (.xattrNotFound n)
  list : ∀ t, g.containsInode t = true →
    ∃ keys, listxattr g t = .ok keys ∧ keys.Nodup ∧ ∀ a, a ∈ keys ↔ (m t a).isSome
  /-- The next inode to be made has no attributes. -/
  born : ∀ a, m g.nextInode a = none
  /-- Every attribute in the set of an inode is stored, has one edge, from that inode, and is in no other
      set. -/
  hung : ∀ t x, x ∈ SetIndex.members g.inodeXattrs t → x ∈ g.xattrs ∧
    (∃! s, ∃ id src, g.edges.get s = some (.hasXattr id src x)) ∧
    (∃ s id, g.edges.get s = some (.hasXattr id t x)) ∧
    ∀ t', x ∈ SetIndex.members g.inodeXattrs t' → t' = t
  /-- Every stored attribute is in the set of an inode. -/
  owned : ∀ x, x ∈ g.xattrs → ∃ t, x ∈ SetIndex.members g.inodeXattrs t

/-! ### The tables as keyed records -/

/-- What an attribute is found by. -/
def XAttr.key (xa : XAttr) : XAttrNamespace × String := (xa.ns, xa.name)

/-- The attribute maps that a graph stores. -/
def TypeGraph.attributes (g : TypeGraph) : AttributeMaps := fun t a =>
  (KeyedRecords.lookup g.inodeXattrs g.xattrs XAttr.key t a).map XAttr.value

/-- No two attributes of an inode have the same key. -/
abbrev TypeGraph.KeysApart (g : TypeGraph) : Prop := KeyedRecords g.inodeXattrs g.xattrs XAttr.key

section Tables

variable {g : TypeGraph} {now : Nat → Timestamp} {t : InodeId} {ns : XAttrNamespace} {n : String}
  {v : List UInt8}

theorem findXattr_eq : g.findXattr t ns n = KeyedRecords.find g.inodeXattrs g.xattrs XAttr.key t (ns, n) := by
  unfold TypeGraph.findXattr KeyedRecords.find
  congr 1
  funext x
  cases g.xattrs[x]? with
  | none => rfl
  | some xa => simp [XAttr.key]

theorem getxattr_eq (ht : g.containsInode t = true) : getxattr g t ns n =
    match g.attributes t (ns, n) with
    | some v => .ok v
    | none => .err (.xattrNotFound n) := by
  unfold getxattr TypeGraph.attributes KeyedRecords.lookup
  rw [findXattr_eq, ht]
  cases (KeyedRecords.find g.inodeXattrs g.xattrs XAttr.key t (ns, n)).bind fun x => g.xattrs[x]? with
  | none => rfl
  | some xa => rfl

theorem listxattr_eq (ht : g.containsInode t = true) :
    listxattr g t = .ok (KeyedRecords.keys g.inodeXattrs g.xattrs XAttr.key t) := by
  unfold listxattr
  rw [ht]
  rfl

/-- One key of one map replaced, read at any key of any map. -/
theorem AttributeMaps.update_apply (m : AttributeMaps) (t t' : InodeId) (a a' : XAttrNamespace × String)
    (w : Option (List UInt8)) :
    Function.update m t (Function.update (m t) a w) t' a' = if t' = t ∧ a' = a then w else m t' a' := by
  rw [Function.update_apply]
  split
  · rename_i ht
    subst ht
    rw [Function.update_apply]
    simp only [true_and]
  · rename_i ht
    rw [if_neg fun hboth => ht hboth.1]

/-- Attribute ids are issued in order. -/
def TypeGraph.XattrIdsBelow (g : TypeGraph) : Prop := ∀ x, x ∈ g.xattrs → x < g.nextXattr

theorem TypeGraph.XattrIdsBelow.fresh (h : g.XattrIdsBelow) : g.nextXattr ∉ g.xattrs :=
  fun hmem => absurd (h _ hmem) (lt_irrefl _)

theorem Inv.xattrIdsBelow (h : Inv g) : g.XattrIdsBelow := fun _ hx => h.side.xattrs.lt_next hx

/-- setxattr fails and leaves the tables alone, or sets one key. -/
theorem setxattr_attributes (now : Nat → Timestamp) (t : InodeId) (ns : XAttrNamespace) (n : String)
    (v : List UInt8) (hfresh : g.nextXattr ∉ g.xattrs) (hkeys : g.KeysApart) :
    ((setxattr now t ns n v g).1.Failed ∧ (setxattr now t ns n v g).2 = g) ∨
    ((∃ x, (setxattr now t ns n v g).1 = .ok x) ∧ (setxattr now t ns n v g).2.KeysApart ∧
      (setxattr now t ns n v g).2.attributes = Op.onAttributes g.attributes (.setxattr t ns n v)) := by
  rcases setxattr_cases now t ns n v g with
    ⟨o, hfail, heq⟩ | ⟨_, _, _, ⟨x, hfind, heq⟩ | ⟨hfind, heq⟩⟩
  · rw [heq]
    exact .inl ⟨hfail, rfl⟩
  · -- the attribute is there: its value is replaced in place
    rw [findXattr_eq] at hfind
    have hsame : ∀ xa : XAttr, ({ xa with value := v } : XAttr).key = xa.key := fun _ => rfl
    rw [heq]
    refine .inr ⟨⟨x, rfl⟩, hkeys.rewrite x hsame, ?_⟩
    funext t' a'
    have hlookup := hkeys.lookup_rewrite t' a' hsame hfind
    unfold TypeGraph.attributes
    dsimp only
    rw [Op.onAttributes, AttributeMaps.update_apply, hlookup]
    split
    · obtain ⟨xa, hxa⟩ := Option.isSome_iff_exists.mp (KeyedRecords.isSome_lookup.trans (Option.isSome_of_eq_some hfind))
      rw [hxa]
      rfl
    · rfl
  · rw [findXattr_eq] at hfind
    have hattached : KeyedRecords (SetIndex.add g.inodeXattrs t g.nextXattr)
        (g.xattrs.insert g.nextXattr ⟨g.nextXattr, ns, n, v⟩) XAttr.key :=
      hkeys.attach hfresh hfind
    rw [heq]
    refine .inr ⟨⟨_, rfl⟩, hattached, ?_⟩
    funext t' a'
    have hlookup := hkeys.lookup_attach hfresh ⟨g.nextXattr, ns, n, v⟩ t' a' hfind
    unfold TypeGraph.attributes
    dsimp only
    rw [Op.onAttributes, AttributeMaps.update_apply]
    change (KeyedRecords.lookup (SetIndex.add g.inodeXattrs t g.nextXattr) (g.xattrs.insert g.nextXattr _)
      XAttr.key t' a').map XAttr.value = _
    rw [hlookup]
    exact apply_ite (Option.map XAttr.value) _ _ _

/-- removexattr fails and leaves the tables alone, or erases one key. -/
theorem removexattr_attributes (now : Nat → Timestamp) (t : InodeId) (ns : XAttrNamespace) (n : String)
    (hkeys : g.KeysApart) :
    ((removexattr now t ns n g).1.Failed ∧ (removexattr now t ns n g).2 = g) ∨
    ((∃ x, (removexattr now t ns n g).1 = .ok x) ∧ (removexattr now t ns n g).2.KeysApart ∧
      (removexattr now t ns n g).2.attributes = Op.onAttributes g.attributes (.removexattr t ns n)) := by
  rcases removexattr_cases now t ns n g with
    ⟨o, hfail, heq⟩ | ⟨_, _, x, hfind, heq⟩
  · rw [heq]
    exact .inl ⟨hfail, rfl⟩
  · rw [findXattr_eq] at hfind
    obtain ⟨hx, xa, hxa, hkey⟩ := KeyedRecords.of_find hfind
    obtain ⟨_, _, hdropped⟩ := dropXattr_frame (g := g) t x
    rw [heq, hdropped]
    refine .inr ⟨⟨(), rfl⟩, hkeys.detach hx, ?_⟩
    funext t' a'
    have hlookup := hkeys.lookup_detach hx t' a' hxa
    unfold TypeGraph.attributes
    dsimp only
    rw [Op.onAttributes, AttributeMaps.update_apply]
    change (KeyedRecords.lookup (SetIndex.drop g.inodeXattrs t x) (g.xattrs.erase x) XAttr.key t' a').map
      XAttr.value = _
    rw [hlookup, hkey]
    exact apply_ite (Option.map XAttr.value) _ _ _

/-- Every call follows the maps, whatever the graph. -/
theorem Op.attributes_step (op : Op) (now : Nat → Timestamp) (hfresh : g.nextXattr ∉ g.xattrs) (hkeys : g.KeysApart) :
    (op.apply now g).2.KeysApart ∧
    ((op.apply now g).1.Failed → (op.apply now g).2.attributes = g.attributes) ∧
    (∀ r, (op.apply now g).1 = .ok r → (op.apply now g).2.attributes = op.onAttributes g.attributes) := by
  have hother : (∀ t ns n v, op ≠ .setxattr t ns n v) → (∀ t ns n, op ≠ .removexattr t ns n) →
      op.onAttributes g.attributes = g.attributes → (op.apply now g).2.KeysApart ∧
        ((op.apply now g).1.Failed → (op.apply now g).2.attributes = g.attributes) ∧
        (∀ r, (op.apply now g).1 = .ok r →
          (op.apply now g).2.attributes = op.onAttributes g.attributes) := by
    intro hset hremove hidle
    obtain ⟨hxattrs, hindex, _⟩ := (op.holdings_kept now g).xattrs hset hremove
    change (op.apply now g).2.xattrs = g.xattrs at hxattrs
    change (op.apply now g).2.inodeXattrs = g.inodeXattrs at hindex
    have hmaps : (op.apply now g).2.attributes = g.attributes := by
      unfold TypeGraph.attributes
      rw [hxattrs, hindex]
    rw [hidle]
    refine ⟨?_, fun _ => hmaps, fun _ _ => hmaps⟩
    rw [TypeGraph.KeysApart, hxattrs, hindex]
    exact hkeys
  cases op with
  | setxattr t ns n v =>
      rw [Op.apply, Prod.map_fst, Prod.map_snd]
      rcases setxattr_attributes now t ns n v hfresh hkeys with
        ⟨hfail, heq⟩ | ⟨⟨x, hok⟩, hkeys', hmaps⟩
      · rw [id_eq, heq]
        exact ⟨hkeys, fun _ => rfl, fun r hr => absurd hr (Outcome.map_ne_ok hfail _ _)⟩
      · rw [hok]
        exact ⟨hkeys', fun hno => absurd rfl (hno _), fun _ _ => hmaps⟩
  | removexattr t ns n =>
      rw [Op.apply, Prod.map_fst, Prod.map_snd]
      rcases removexattr_attributes now t ns n hkeys with
        ⟨hfail, heq⟩ | ⟨⟨x, hok⟩, hkeys', hmaps⟩
      · rw [id_eq, heq]
        exact ⟨hkeys, fun _ => rfl, fun r hr => absurd hr (Outcome.map_ne_ok hfail _ _)⟩
      · rw [hok]
        exact ⟨hkeys', fun hno => absurd rfl (hno _), fun _ _ => hmaps⟩
  | createFile | mkdir | rmdir | link | unlink | rename | symlink | writeBlock | writeData | truncate | chmod
  | chown | setacl | setQuota =>
      exact hother (by simp) (by simp) rfl

/-- Every call issues attribute ids in order, whatever the graph. -/
theorem Op.xattrIdsBelow_step {op : Op} (h : g.XattrIdsBelow) : (op.apply now g).2.XattrIdsBelow := by
  have hother : (∀ t ns n v, op ≠ .setxattr t ns n v) → (∀ t ns n, op ≠ .removexattr t ns n) →
      (op.apply now g).2.XattrIdsBelow := by
    intro hset hremove
    obtain ⟨hxattrs, _, hnext⟩ := (op.holdings_kept now g).xattrs hset hremove
    change (op.apply now g).2.xattrs = g.xattrs at hxattrs
    change (op.apply now g).2.nextXattr = g.nextXattr at hnext
    rw [TypeGraph.XattrIdsBelow, hxattrs, hnext]
    exact h
  cases op with
  | setxattr t ns n v =>
      rw [Op.apply, Prod.map_snd]
      rcases setxattr_cases now t ns n v g with
        ⟨o, _, heq⟩ | ⟨_, _, _, ⟨x, _, heq⟩ | ⟨_, heq⟩⟩ <;> rw [heq]
      · exact h
      · intro y hy
        exact h y (ExtTreeMap.mem_modify.mp hy)
      · intro y hy
        rcases ExtTreeMap.mem_insert.mp hy with heq | hy
        · rw [← Std.compare_eq_iff_eq.mp heq]
          exact Nat.lt_succ_self _
        · exact (h y hy).trans (Nat.lt_succ_self _)
  | removexattr t ns n =>
      rw [Op.apply, Prod.map_snd]
      rcases removexattr_cases now t ns n g with
        ⟨o, _, heq⟩ | ⟨_, _, x, _, heq⟩ <;> rw [heq]
      · exact h
      · obtain ⟨_, _, hdropped⟩ := dropXattr_frame (g := g) t x
        intro y hy
        rw [hdropped] at hy ⊢
        exact h y (ExtTreeMap.mem_erase.mp hy).2
  | createFile | mkdir | rmdir | link | unlink | rename | symlink | writeBlock | writeData | truncate | chmod
  | chown | setacl | setQuota =>
      exact hother (by simp) (by simp)

/-- An attribute in the set of an inode is stored and hangs on one edge, from that inode. -/
theorem Inv.hung (h : Inv g) {x : XAttrId} (hx : x ∈ SetIndex.members g.inodeXattrs t) : x ∈ g.xattrs ∧
    (∃! s, ∃ id src, g.edges.get s = some (.hasXattr id src x)) ∧
    (∃ s id, g.edges.get s = some (.hasXattr id t x)) ∧
    ∀ t', x ∈ SetIndex.members g.inodeXattrs t' → t' = t := by
  obtain ⟨e, he⟩ := h.side.xattrs.owned.mp hx
  have hdata : g.edges.get e = some (.hasXattr e t x) := by
    rw [Arena.get_eq_data]
    exact h.attachment_iff.mp he
  refine ⟨h.side.xattrs.live.mpr ⟨e, t, he⟩, ⟨e, ⟨e, t, hdata⟩, ?_⟩, ⟨e, e, hdata⟩, ?_⟩
  · rintro s ⟨id, src, hs⟩
    rw [Arena.get_eq_data] at hs
    exact h.side.xattrs.unique (Arena.view_eq_some.mpr ⟨_, hs, rfl⟩) he
  · intro t' ht'
    obtain ⟨e', he'⟩ := h.side.xattrs.owned.mp ht'
    rw [h.side.xattrs.unique he' he, he] at he'
    exact (Prod.mk.inj (Option.some.inj he')).1.symm

/-- A graph whose keys are apart answers as the maps it stores. -/
theorem Inv.attributesFollow (h : Inv g) (hbelow : g.Below) (hkeys : g.KeysApart) :
    AttributesFollow g g.attributes where
  set := by
    intro now t ns n v hcap ht hsize
    unfold setxattr
    rw [hcap, ht]
    dsimp only
    rw [if_neg (by decide), if_neg (not_lt.mpr hsize)]
    split
    · exact ⟨_, rfl⟩
    · exact ⟨_, rfl⟩
  tooLarge := by
    intro now t ns n v hcap ht hsize
    unfold setxattr
    rw [hcap, ht]
    dsimp only
    rw [if_neg (by decide), if_pos hsize]
  get t ns n ht := getxattr_eq ht
  remove := by
    intro now t ns n hcap ht
    unfold removexattr TypeGraph.attributes
    rw [hcap, ht, findXattr_eq, Option.isSome_map, KeyedRecords.isSome_lookup]
    dsimp only
    rw [if_neg (by decide)]
    split
    · rename_i hfind
      rw [hfind]
      rfl
    · rename_i hfind
      rw [hfind]
      rfl
  list := by
    intro t ht
    refine ⟨_, listxattr_eq ht, hkeys.nodup_keys, ?_⟩
    intro a
    unfold TypeGraph.attributes
    rw [Option.isSome_map]
    exact hkeys.mem_keys
  born := by
    intro a
    unfold TypeGraph.attributes
    rw [Option.map_eq_none_iff, Option.eq_none_iff_forall_ne_some]
    intro xa hxa
    obtain ⟨x, hx, _⟩ := hkeys.lookup_eq_some.mp hxa
    have hkey : g.nextInode ∈ g.inodeXattrs := by
      by_contra hno
      exact SetIndex.not_mem_members_of_none (ExtTreeMap.getElem?_eq_none hno) x hx
    exact h.next_above (hbelow.inodeXattrs _ hkey)
  hung t x hx := h.hung hx
  owned := by
    intro x hx
    obtain ⟨e, t, he⟩ := h.side.xattrs.live.mp hx
    exact ⟨t, h.side.xattrs.owned.mpr ⟨e, he⟩⟩

end Tables

/-! ### Runs -/

section Runs

variable {g : TypeGraph} {m : AttributeMaps}

theorem AttributeRun.reachable (hrun : AttributeRun g m) : Reachable g := by
  induction hrun with
  | new now => exact .new now
  | call now op r _ hcall _ ih => exact .call now op ih hcall
  | failed now op _ hcall _ ih => exact .call now op ih hcall
  | setCapCtx ctx _ ih => exact .setCapCtx ctx ih
  | enableProvLog _ ih => exact .enableProvLog ih
  | disableProvLog _ ih => exact .disableProvLog ih

/-- Every run leaves maps. -/
theorem Reachable.exists_attributeRun (hg : Reachable g) : ∃ m, AttributeRun g m := by
  induction hg with
  | new now => exact ⟨_, .new now⟩
  | @call g now op _ hcall ih =>
      obtain ⟨m, hrun⟩ := ih
      by_cases hfail : (op.apply now g).1.Failed
      · exact ⟨m, .failed now op hrun hcall hfail⟩
      · obtain ⟨r, hr⟩ := not_forall.mp hfail
        exact ⟨_, .call now op r hrun hcall (not_not.mp hr)⟩
  | setCapCtx ctx _ ih => exact ih.imp fun _ hrun => .setCapCtx ctx hrun
  | enableProvLog _ ih => exact ih.imp fun _ hrun => .enableProvLog hrun
  | disableProvLog _ ih => exact ih.imp fun _ hrun => .disableProvLog hrun

/-- The maps that the calls leave are the maps that the graph stores. -/
theorem AttributeRun.stored (hrun : AttributeRun g m) : g.KeysApart ∧ g.attributes = m := by
  induction hrun with
  | new now =>
      refine ⟨.empty, ?_⟩
      funext t a
      have hnone : KeyedRecords.lookup (∅ : SetIndex InodeId XAttrId) ∅ XAttr.key t a = none := by
        rw [Option.eq_none_iff_forall_ne_some]
        intro xa hxa
        obtain ⟨x, hx, _⟩ := KeyedRecords.empty.lookup_eq_some.mp hxa
        exact SetIndex.not_mem_members_empty t x hx
      exact congrArg (Option.map XAttr.value) hnone
  | call now op r hrun _ hok ih =>
      obtain ⟨hkeys, _, hmaps⟩ := op.attributes_step now hrun.reachable.inv.xattrIdsBelow.fresh ih.1
      exact ⟨hkeys, (hmaps r hok).trans (by rw [ih.2])⟩
  | failed now op hrun _ hfail ih =>
      obtain ⟨hkeys, hmaps, _⟩ := op.attributes_step now hrun.reachable.inv.xattrIdsBelow.fresh ih.1
      exact ⟨hkeys, (hmaps hfail).trans ih.2⟩
  | setCapCtx ctx _ ih => exact ih
  | enableProvLog _ ih => exact ih
  | disableProvLog _ ih => exact ih

/-- On every in-capacity run the attributes are the finite maps that the successful calls leave. -/
theorem attributes_follow (hg : Reachable g) :
    (∃ m, AttributeRun g m) ∧ ∀ m, AttributeRun g m → AttributesFollow g m := by
  refine ⟨hg.exists_attributeRun, ?_⟩
  intro m hrun
  obtain ⟨hkeys, rfl⟩ := hrun.stored
  exact hg.inv.attributesFollow hg.below hkeys

/-- A file with two attributes, one of which is set again. -/
theorem attributes_follow_pair :
    (∃ m, AttributeRun (((TypeGraph.new 0).calls (fun _ => 0)
      [.createFile 1 "a" 0 0 .fileDefault, .setxattr 2 .user "k" [1], .setxattr 2 .user "l" [2],
        .setxattr 2 .user "k" [3]])) m) ∧
    ∀ m, AttributeRun (((TypeGraph.new 0).calls (fun _ => 0)
      [.createFile 1 "a" 0 0 .fileDefault, .setxattr 2 .user "k" [1], .setxattr 2 .user "l" [2],
        .setxattr 2 .user "k" [3]])) m → AttributesFollow (((TypeGraph.new 0).calls (fun _ => 0)
      [.createFile 1 "a" 0 0 .fileDefault, .setxattr 2 .user "k" [1], .setxattr 2 .user "l" [2],
        .setxattr 2 .user "k" [3]])) m :=
  attributes_follow (.calls _ (.new 0) (by decide))

end Runs

end SotFs
