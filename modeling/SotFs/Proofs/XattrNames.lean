/-
Module: SotFs.Proofs.XattrNames
Layer: Proofs
Purpose: Attribute names on both sides of the FUSE boundary. A full name is a namespace, a dot and the rest,
  split at the first dot; joining the two parts gives it back byte by byte, so no two full names are stored as
  one. On every run of requests with names without NUL, the buffer of listxattr decodes to the names that are
  set, each once, and each of them reads the value it was set to.
Trusted boundary: none
Main exports: fullName, splitXattr_toStr_iff, FuseRun, XattrNamesFollow, xattrNames_follow
-/
import SotFs.Foundation.Lines
import SotFs.Core.Fuse
import SotFs.Proofs.Attributes

namespace SotFs

open Std (ExtTreeMap ExtTreeSet)
open Foundation

/-! ### Full names -/

/-- The name under which an attribute is listed. -/
def fullName (key : XAttrNamespace × String) : OsStr := bytesOf (Fuse.xattrPrefix key.1) ++ bytesOf key.2

section Names

variable {name : OsStr} {key : XAttrNamespace × String}

/-- A word and the rest of a text, around the first dot. -/
theorem span_dot {word rest : List Char} (hword : '.' ∉ word) :
    (word ++ '.' :: rest).span (· ≠ '.') = (word, '.' :: rest) := by
  rw [List.span_eq_takeWhile_dropWhile]
  have hall : ∀ c ∈ word, decide (c ≠ '.') = true := by
    intro c hc
    rw [decide_eq_true_eq]
    rintro rfl
    exact hword hc
  rw [List.takeWhile_append_of_pos hall, List.dropWhile_append_of_pos hall]
  simp

/-- The word of a namespace. -/
def namespaceWord : XAttrNamespace → String
  | .user => "user"
  | .system => "system"
  | .security => "security"
  | .trusted => "trusted"

theorem xattrPrefix_toList (ns : XAttrNamespace) :
    (Fuse.xattrPrefix ns).toList = (namespaceWord ns).toList ++ ['.'] := by
  cases ns <;> decide

/-- A name splits into namespace and rest exactly when it is the two of them joined. -/
theorem splitXattr_iff {s : String} :
    Fuse.splitXattr s = some key ↔ s = Fuse.xattrPrefix key.1 ++ key.2 := by
  obtain ⟨ns, rest⟩ := key
  rw [← String.toList_inj, String.toList_append, xattrPrefix_toList]
  constructor
  · intro h
    have hjoin : s.toList.takeWhile (· ≠ '.') ++ s.toList.dropWhile (· ≠ '.') = s.toList :=
      List.takeWhile_append_dropWhile
    rw [Fuse.splitXattr, List.span_eq_takeWhile_dropWhile] at h
    dsimp only at h
    split at h
    · cases h
    · rename_i dot tail hdrop
      have hdot : dot = '.' := by
        have hhead := List.head?_dropWhile_not (fun c => decide (c ≠ '.')) s.toList
        rw [hdrop] at hhead
        simpa using hhead
      rw [hdrop, hdot] at hjoin
      have hend : ∀ word, String.ofList (s.toList.takeWhile (· ≠ '.')) = word →
          s.toList = word.toList ++ ['.'] ++ (String.ofList tail).toList := by
        rintro word rfl
        rw [String.toList_ofList, String.toList_ofList, List.append_assoc, List.singleton_append, hjoin]
      split at h
      · rename_i hword
        cases h
        exact hend "user" hword
      · rename_i hword
        cases h
        exact hend "system" hword
      · rename_i hword
        cases h
        exact hend "security" hword
      · rename_i hword
        cases h
        exact hend "trusted" hword
      · cases h
  · intro h
    have hword : '.' ∉ (namespaceWord ns).toList := by
      clear h
      cases ns <;> decide
    have hspan : s.toList.span (· ≠ '.') = ((namespaceWord ns).toList, '.' :: rest.toList) := by
      rw [h, List.append_assoc, List.singleton_append]
      exact span_dot hword
    rw [Fuse.splitXattr, hspan]
    dsimp only
    rw [String.ofList_toList, String.ofList_toList]
    cases ns <;> rfl

/-- A name as it comes from the kernel splits into the attribute that is listed under it. -/
theorem splitXattr_toStr_iff : Fuse.splitXattr name.toStr = some key ↔ name = fullName key := by
  rw [splitXattr_iff, fullName, ← bytesOf_append, ← ofBytes_eq_some]
  change (ofBytes name).getD "" = _ ↔ _
  cases ofBytes name with
  | some s => exact Option.some_inj.symm
  | none =>
      -- a name that is not UTF-8 is read as the empty one, which has no namespace
      refine iff_of_false (fun h => ?_) (by simp)
      have hempty := congrArg String.toList h
      rw [Option.getD_none, String.toList_append, xattrPrefix_toList] at hempty
      simp at hempty

theorem fullName_inj {key' : XAttrNamespace × String} : fullName key = fullName key' ↔ key = key' := by
  constructor
  · intro h
    have hsplit := splitXattr_toStr_iff.mpr (rfl : fullName key = fullName key)
    rw [h, splitXattr_toStr_iff.mpr rfl] at hsplit
    exact (Option.some.inj hsplit).symm
  · rintro rfl
    rfl

/-- A listed name has a NUL only if its rest has. -/
theorem zero_notMem_fullName (hkey : Char.ofNat 0 ∉ key.2.toList) : 0 ∉ fullName key := by
  rw [fullName, List.mem_append, not_or, zero_mem_bytesOf, zero_mem_bytesOf]
  refine ⟨?_, hkey⟩
  cases key.1 <;> decide

end Names

/-! ### The buffer -/

/-- The names in a buffer, cut at the NUL behind each. -/
def namesOf (buffer : List UInt8) : List OsStr := (lines 0 buffer).map List.dropLast

/-- A buffer decodes to the names it was made of. -/
theorem namesOf_xattrBuffer {keys : List (XAttrNamespace × String)}
    (hkeys : ∀ key ∈ keys, Char.ofNat 0 ∉ key.2.toList) :
    namesOf (Fuse.xattrBuffer keys) = keys.map fullName := by
  have hends : ∀ keys : List (XAttrNamespace × String), EndsLine 0 (Fuse.xattrBuffer keys) := by
    intro keys
    cases keys using List.reverseRecOn with
    | nil => exact endsLine_nil
    | append_singleton keys key =>
        rw [Fuse.xattrBuffer, List.flatMap_append, List.flatMap_singleton, ← List.append_assoc]
        exact endsLine_snoc
  induction keys using List.reverseRecOn with
  | nil => rfl
  | append_singleton keys key ih =>
      have hkey := zero_notMem_fullName (hkeys key (List.mem_append_right keys (List.mem_singleton_self key)))
      have hrest := ih fun k hk => hkeys k (List.mem_append_left [key] hk)
      have hbuffer : Fuse.xattrBuffer (keys ++ [key]) = Fuse.xattrBuffer keys ++ (fullName key ++ [0]) := by
        rw [Fuse.xattrBuffer, List.flatMap_append, List.flatMap_singleton]
        rfl
      rw [hbuffer, namesOf, lines_snoc (hends keys) hkey, List.map_append, List.map_append, ← hrest]
      simp [namesOf]

/-! ### Runs of requests -/

/-- For every inode the full names that are set, with their values. -/
abbrev XattrNames := InodeId → OsStr → Option (List UInt8)

namespace FuseRequest

/-- The names that come with a request to set an attribute have no NUL. -/
def NulFree : FuseRequest → Prop
  | .setxattr _ name _ => 0 ∉ name
  | _ => True

/-- What an answered request does to the names. -/
def onNames (reply : Option FuseReply) (names : XattrNames) : FuseRequest → XattrNames
  | .setxattr ino name value =>
      if reply = some .ok then Function.update names ino (Function.update (names ino) name (some value))
      else names
  | .removexattr ino name =>
      if reply = some .ok then Function.update names ino (Function.update (names ino) name none) else names
  | _ => names

end FuseRequest

/-- The requests of a mount with the names that they leave. -/
inductive FuseRun : Mount → XattrNames → Prop where
  | start (now : Timestamp) : FuseRun ⟨.new now, ∅, 1⟩ fun _ _ => none
  | startLogged (now : Timestamp) : FuseRun ⟨(TypeGraph.new now).enableProvLog, ∅, 1⟩ fun _ _ => none
  | request {m : Mount} {names : XattrNames} (now : Nat → Nat → Timestamp) (req : FuseCaller)
      (request : FuseRequest) : FuseRun m names → request.NulFree →
        FuseRun (request.handle now req m).2 (request.onNames (request.handle now req m).1 names)

/-- The requests that read attributes answer as the names say. -/
structure XattrNamesFollow (m : Mount) (names : XattrNames) : Prop where
  list : ∀ ino, m.graph.containsInode ino = true → ∃ buffer,
    (∀ size, Fuse.listxattr ino size m = some (Fuse.replyBytes size buffer)) ∧
      (namesOf buffer).Nodup ∧ ∀ name, name ∈ namesOf buffer ↔ (names ino name).isSome
  get : ∀ ino name size, m.graph.containsInode ino = true → Fuse.getxattr ino name size m =
    match names ino name with
    | some value => some (Fuse.replyBytes size value)
    | none => some (.error (if (Fuse.splitXattr name.toStr).isSome then .ENODATA else .ENOTSUP))
  apart : ∀ (name name' : OsStr) key, Fuse.splitXattr name.toStr = some key →
    Fuse.splitXattr name'.toStr = some key → name = name'

section Handlers

variable {now : Nat → Nat → Timestamp} {req : FuseCaller} {m : Mount}

theorem respond_graph {α : Type} (m : Mount) (result : Outcome α × TypeGraph)
    (onOk : α → TypeGraph → Option FuseReply) (onErr : GraphError → Errno) :
    (Fuse.respond m result onOk onErr).2.graph = result.2 := by
  obtain ⟨o, g⟩ := result
  cases o <;> rfl

/-- Nothing happens, or one operation does that is not about attributes. -/
def OneOp (g g' : TypeGraph) : Prop :=
  g' = g ∨ ∃ (now : Nat → Timestamp) (op : Op), g' = (op.apply now g).2 ∧ ∀ maps, op.onAttributes maps = maps

theorem oneOp_apply {g : TypeGraph} {now : Nat → Timestamp} (op : Op)
    (hidle : ∀ maps, op.onAttributes maps = maps) : OneOp g (op.apply now g).2 := .inr ⟨now, op, rfl, hidle⟩

/-- A request other than setattr and the two that change attributes calls at most one operation. -/
theorem FuseRequest.handle_oneOp {request : FuseRequest}
    (hsetattr : ∀ ino mode uid gid size, request ≠ .setattr ino mode uid gid size)
    (hset : ∀ ino name value, request ≠ .setxattr ino name value)
    (hremove : ∀ ino name, request ≠ .removexattr ino name) :
    OneOp (m.graph.setCapCtx (ctxFromReq req)) (request.handle now req m).2.graph := by
  cases request with
  | setattr ino mode uid gid size => exact absurd rfl (hsetattr ino mode uid gid size)
  | setxattr ino name value => exact absurd rfl (hset ino name value)
  | removexattr ino name => exact absurd rfl (hremove ino name)
  | mkdir parent name mode =>
      unfold FuseRequest.handle Fuse.mkdir
      dsimp only
      split
      · exact .inl rfl
      · rename_i d hd
        rw [respond_graph]
        exact oneOp_apply (.mkdir d name.toStr req.uid req.gid (Fuse.permsOf mode)) fun _ => rfl
  | rmdir parent name =>
      unfold FuseRequest.handle Fuse.rmdir
      dsimp only
      split
      · exact .inl rfl
      · rename_i d hd
        rw [respond_graph]
        exact oneOp_apply (.rmdir d name.toStr) fun _ => rfl
  | create parent name mode =>
      unfold FuseRequest.handle Fuse.create
      dsimp only
      split
      · exact .inl rfl
      · rename_i d hd
        have hop : OneOp (m.graph.setCapCtx (ctxFromReq req))
            (createFile (now 0) d name.toStr req.uid req.gid (Fuse.permsOf mode)
              (m.graph.setCapCtx (ctxFromReq req))).2 :=
          oneOp_apply (.createFile d name.toStr req.uid req.gid (Fuse.permsOf mode)) fun _ => rfl
        split <;> (rename_i heq; rwa [heq] at hop)
  | unlink parent name =>
      unfold FuseRequest.handle Fuse.unlink
      dsimp only
      split
      · exact .inl rfl
      · rename_i d hd
        rw [respond_graph]
        exact oneOp_apply (.unlink d name.toStr) fun _ => rfl
  | rename parent name newparent newname =>
      unfold FuseRequest.handle Fuse.rename
      dsimp only
      split
      · exact .inl rfl
      · rename_i d hd
        split
        · exact .inl rfl
        · rename_i d' hd'
          rw [respond_graph]
          exact oneOp_apply (.rename d name.toStr d' newname.toStr) fun _ => rfl
  | link ino newparent newname =>
      unfold FuseRequest.handle Fuse.link
      dsimp only
      split
      · exact .inl rfl
      · rename_i d hd
        rw [respond_graph]
        exact oneOp_apply (.link d newname.toStr ino) fun _ => rfl
  | write ino offset data =>
      unfold FuseRequest.handle Fuse.write
      dsimp only
      rw [respond_graph]
      exact oneOp_apply (.writeData ino (offset % 2 ^ 64).toNat data) fun _ => rfl
  | symlink parent name target =>
      unfold FuseRequest.handle Fuse.symlink
      dsimp only
      split
      · exact .inl rfl
      · rename_i d hd
        rw [respond_graph]
        exact oneOp_apply (.symlink d name.toStr target.toStr req.uid req.gid) fun _ => rfl

/-- What a step of setattr and the rest of the request keep, the request keeps. -/
theorem setattrStep_keeps {α : Type} {P : TypeGraph → Prop} {requested : Bool}
    {op : TypeGraph → Outcome α × TypeGraph} {next : Mount → Fuse.Handled} (h : P m.graph)
    (hop : ∀ g, P g → P (op g).2) (hnext : ∀ m : Mount, P m.graph → P (next m).2.graph) :
    P (Fuse.setattrStep requested op m next).2.graph := by
  have hafter := hop m.graph h
  unfold Fuse.setattrStep
  split
  · split <;> (rename_i heq; rw [heq] at hafter)
    · exact hnext _ hafter
    all_goals exact hafter
  · exact hnext m h

theorem respond_ok_iff {α : Type} {m : Mount} {result : Outcome α × TypeGraph} {onErr : GraphError → Errno} :
    (Fuse.respond m result (fun _ _ => some .ok) onErr).1 = some .ok ↔ ∃ a, result.1 = .ok a := by
  obtain ⟨o, g⟩ := result
  cases o <;> simp [Fuse.respond]

end Handlers

section Runs

variable {m : Mount} {names : XattrNames}

/-- One key of one map replaced, read at any key of any map. -/
theorem update_update_apply {α β γ : Type} [DecidableEq α] [DecidableEq β] (f : α → β → γ) (a a' : α)
    (b b' : β) (c : γ) : Function.update f a (Function.update (f a) b c) a' b' =
      if a' = a ∧ b' = b then c else f a' b' := by
  rw [Function.update_apply]
  split
  · rename_i ha
    subst ha
    rw [Function.update_apply]
    simp only [true_and]
  · rename_i ha
    rw [if_neg fun hboth => ha hboth.1]

/-- The names stand for the keys of the stored attributes, none of which has a NUL. -/
structure Tracks (g : TypeGraph) (names : XattrNames) : Prop where
  ids : g.XattrIdsBelow
  keys : g.KeysApart
  names_eq : ∀ ino name, names ino name = (Fuse.splitXattr (OsStr.toStr name)).bind (g.attributes ino)
  nulFree : ∀ ino key, (g.attributes ino key).isSome → Char.ofNat 0 ∉ key.2.toList

namespace Tracks

variable {g : TypeGraph} {now : Nat → Timestamp} {op : Op}

/-- The tables are what the names stand for. -/
theorem of_attributes {g' : TypeGraph} (h : Tracks g names) (hids : g'.XattrIdsBelow) (hkeys : g'.KeysApart)
    (heq : g'.attributes = g.attributes) : Tracks g' names :=
  ⟨hids, hkeys, heq ▸ h.names_eq, heq ▸ h.nulFree⟩

/-- A call that fails leaves the names. -/
theorem failed (h : Tracks g names) (hfail : (op.apply now g).1.Failed) : Tracks (op.apply now g).2 names := by
  obtain ⟨hkeys, hmaps, _⟩ := op.attributes_step now h.ids.fresh h.keys
  exact h.of_attributes (op.xattrIdsBelow_step h.ids) hkeys (hmaps hfail)

/-- So does one that is not about attributes. -/
theorem idle (h : Tracks g names) (op : Op) (hidle : ∀ maps, op.onAttributes maps = maps) :
    Tracks (op.apply now g).2 names := by
  by_cases hfail : (op.apply now g).1.Failed
  · exact h.failed hfail
  · obtain ⟨r, hr⟩ := not_forall.mp hfail
    obtain ⟨hkeys, _, hmaps⟩ := op.attributes_step now h.ids.fresh h.keys
    exact h.of_attributes (op.xattrIdsBelow_step h.ids) hkeys ((hmaps r (not_not.mp hr)).trans (hidle _))

theorem oneOp {g' : TypeGraph} (h : Tracks g names) (hop : OneOp g g') : Tracks g' names := by
  rcases hop with rfl | ⟨now', op, rfl, hidle⟩
  · exact h
  · exact h.idle _ hidle

/-- One name and its key are set or removed together. -/
theorem update {g' : TypeGraph} (h : Tracks g names) (ino : InodeId) {name : OsStr}
    {key : XAttrNamespace × String} (hsplit : Fuse.splitXattr name.toStr = some key)
    (value : Option (List UInt8)) (hfree : value.isSome → 0 ∉ name) (hids : g'.XattrIdsBelow)
    (hkeys : g'.KeysApart)
    (hmaps : g'.attributes =
      Function.update g.attributes ino (Function.update (g.attributes ino) key value)) :
    Tracks g' (Function.update names ino (Function.update (names ino) name value)) where
  ids := hids
  keys := hkeys
  names_eq ino' name' := by
    rw [update_update_apply, h.names_eq, hmaps]
    cases hsplit' : Fuse.splitXattr (OsStr.toStr name') with
    | none =>
        rw [if_neg]
        · rfl
        · rintro ⟨_, rfl⟩
          rw [hsplit] at hsplit'
          cases hsplit'
    | some key' =>
        have hnames : name' = name ↔ key' = key := by
          rw [splitXattr_toStr_iff.mp hsplit, splitXattr_toStr_iff.mp hsplit', fullName_inj]
        rw [Option.bind_some, Option.bind_some, update_update_apply]
        exact if_congr (and_congr_right fun _ => hnames) rfl rfl
  nulFree ino' key' hsome := by
    rw [hmaps, update_update_apply] at hsome
    split at hsome
    · rename_i hboth
      rw [hboth.2]
      have hname := hfree hsome
      rw [splitXattr_toStr_iff.mp hsplit, fullName, List.mem_append, not_or] at hname
      exact fun hzero => hname.2 (zero_mem_bytesOf.mpr hzero)
    · exact h.nulFree ino' key' hsome

/-- A call that answers ok exactly when it succeeds: then one name and its key have the new value. -/
theorem answered {α : Type} {result : Outcome α × TypeGraph} {f : α → Reply} {onErr : GraphError → Errno}
    (h : Tracks g names) (op : Op) (hop : op.apply now g = result.map (Outcome.map f) id) (ino : InodeId) {name : OsStr}
    {key : XAttrNamespace × String} (hsplit : Fuse.splitXattr name.toStr = some key)
    (value : Option (List UInt8)) (hfree : value.isSome → 0 ∉ name)
    (hmaps : ∀ maps, op.onAttributes maps = Function.update maps ino (Function.update (maps ino) key value)) :
    Tracks result.2
      (if (Fuse.respond m result (fun _ _ => some .ok) onErr).1 = some .ok then
        Function.update names ino (Function.update (names ino) name value) else names) := by
  have hgraph : (op.apply now g).2 = result.2 := congrArg Prod.snd hop
  have houtcome : (op.apply now g).1 = result.1.map f := congrArg Prod.fst hop
  rw [← hgraph]
  split
  · rename_i hreply
    obtain ⟨a, ha⟩ := respond_ok_iff.mp hreply
    obtain ⟨hkeys, _, hnext⟩ := op.attributes_step now h.ids.fresh h.keys
    refine h.update ino hsplit value hfree (op.xattrIdsBelow_step h.ids) hkeys ?_
    rw [hnext (f a) (by rw [houtcome, ha]; rfl), hmaps]
  · rename_i hreply
    refine h.failed fun r => ?_
    rw [houtcome]
    exact Outcome.map_ne_ok (fun a ha => hreply (respond_ok_iff.mpr ⟨a, ha⟩)) f r

/-- No step of setattr is about attributes. -/
theorem setattr {now : Nat → Nat → Timestamp} {req : FuseCaller} (h : Tracks m.graph names) (ino : InodeId)
    (mode uid gid : Option UInt32) (size : Option Nat) :
    Tracks (Fuse.setattr now req ino mode uid gid size m).2.graph names := by
  unfold Fuse.setattr
  refine setattrStep_keeps (P := fun g => Tracks g names) (h.of_attributes h.ids h.keys rfl) (fun g hg => ?_) ?_
  · exact hg.idle (.chmod ino (Fuse.permsOf (mode.getD 0)).mode) fun _ => rfl
  intro m hm
  refine setattrStep_keeps (P := fun g => Tracks g names) hm (fun g hg => ?_) ?_
  · exact hg.idle (.chown ino uid gid) fun _ => rfl
  intro m hm
  refine setattrStep_keeps (P := fun g => Tracks g names) hm (fun g hg => ?_) ?_
  · exact hg.idle (.truncate ino (size.getD 0)) fun _ => rfl
  intro m hm
  split <;> exact hm

/-- One request: what is stored and the names go on together. -/
theorem request {now : Nat → Nat → Timestamp} {req : FuseCaller} (h : Tracks m.graph names)
    (request : FuseRequest) (hfree : request.NulFree) :
    Tracks (request.handle now req m).2.graph (request.onNames (request.handle now req m).1 names) := by
  have hctx : Tracks (m.graph.setCapCtx (ctxFromReq req)) names := h.of_attributes h.ids h.keys rfl
  cases request with
  | setattr ino mode uid gid size => exact h.setattr ino mode uid gid size
  | setxattr ino name value =>
      rw [FuseRequest.handle, Fuse.setxattr]
      cases hsplit : Fuse.splitXattr (OsStr.toStr name) with
      | none => exact h
      | some key =>
          dsimp only
          rw [respond_graph]
          exact hctx.answered (.setxattr ino key.1 key.2 value) rfl ino hsplit (some value)
            (fun _ => hfree) fun _ => rfl
  | removexattr ino name =>
      rw [FuseRequest.handle, Fuse.removexattr]
      cases hsplit : Fuse.splitXattr (OsStr.toStr name) with
      | none => exact h
      | some key =>
          dsimp only
          rw [respond_graph]
          exact hctx.answered (.removexattr ino key.1 key.2) rfl ino hsplit none
            (fun hsome => by cases hsome) fun _ => rfl
  | mkdir | rmdir | create | unlink | rename | link | write | symlink =>
      exact hctx.oneOp (FuseRequest.handle_oneOp (by simp) (by simp) (by simp))

end Tracks

/-- On every run the names stand for the stored attributes. -/
theorem FuseRun.tracks (hrun : FuseRun m names) : Tracks m.graph names := by
  have hempty : ∀ ino key,
      KeyedRecords.lookup (∅ : SetIndex InodeId XAttrId) ∅ XAttr.key ino key = none := by
    intro ino key
    rw [Option.eq_none_iff_forall_ne_some]
    intro xa hxa
    obtain ⟨x, hx, _⟩ := KeyedRecords.empty.lookup_eq_some.mp hxa
    exact SetIndex.not_mem_members_empty ino x hx
  have hstart : ∀ now, Tracks (.new now) fun _ _ => none := by
    intro now
    have hnone : (TypeGraph.new now).attributes = fun _ _ => none := by
      funext ino key
      exact congrArg (Option.map XAttr.value) (hempty ino key)
    refine ⟨fun x hx => absurd hx ExtTreeMap.not_mem_empty, .empty, fun ino name => ?_, fun ino key hsome => ?_⟩
    · rw [hnone]
      cases Fuse.splitXattr (OsStr.toStr name) <;> rfl
    · rw [hnone] at hsome
      cases hsome
  induction hrun with
  | start now => exact hstart now
  | startLogged now => exact (hstart now).of_attributes (hstart now).ids (hstart now).keys rfl
  | request now req request _ hfree ih => exact ih.request request hfree

/-- On every run of requests the names that are set are the names that are listed and read. -/
theorem xattrNames_follow (hrun : FuseRun m names) : XattrNamesFollow m names := by
  have htracks := hrun.tracks
  refine ⟨fun ino hino => ?_, fun ino name size hino => ?_, fun name name' key hname hname' => ?_⟩
  · have hkeys : ∀ key, key ∈ KeyedRecords.keys m.graph.inodeXattrs m.graph.xattrs XAttr.key ino ↔
        (m.graph.attributes ino key).isSome := by
      intro key
      unfold TypeGraph.attributes
      rw [Option.isSome_map]
      exact htracks.keys.mem_keys
    have hdecode := namesOf_xattrBuffer fun key hkey => htracks.nulFree ino key ((hkeys key).mp hkey)
    refine ⟨Fuse.xattrBuffer (KeyedRecords.keys m.graph.inodeXattrs m.graph.xattrs XAttr.key ino),
      fun size => by rw [Fuse.listxattr, listxattr_eq hino], ?_, fun name => ?_⟩
    · rw [hdecode]
      exact htracks.keys.nodup_keys.map fun _ _ heq => fullName_inj.mp heq
    · rw [hdecode, List.mem_map, htracks.names_eq]
      constructor
      · rintro ⟨key, hkey, rfl⟩
        rw [splitXattr_toStr_iff.mpr rfl]
        exact (hkeys key).mp hkey
      · intro hsome
        cases hsplit : Fuse.splitXattr (OsStr.toStr name) with
        | none =>
            rw [hsplit] at hsome
            cases hsome
        | some key =>
            rw [hsplit] at hsome
            exact ⟨key, (hkeys key).mpr hsome, (splitXattr_toStr_iff.mp hsplit).symm⟩
  · rw [Fuse.getxattr, htracks.names_eq]
    cases hsplit : Fuse.splitXattr (OsStr.toStr name) with
    | none => rfl
    | some key =>
        rw [Option.bind_some]
        dsimp only
        rw [getxattr_eq hino]
        cases m.graph.attributes ino key <;> rfl
  · rw [splitXattr_toStr_iff.mp hname, splitXattr_toStr_iff.mp hname']

/-- An attribute of the root whose name has a further dot. -/
theorem xattrNames_follow_dotted :
    XattrNamesFollow
      ((FuseRequest.setxattr 1 (bytesOf "user.a.b") [7]).handle (fun _ _ => 0) ⟨0, 0⟩ ⟨.new 0, ∅, 1⟩).2
      ((FuseRequest.setxattr 1 (bytesOf "user.a.b") [7]).onNames
        ((FuseRequest.setxattr 1 (bytesOf "user.a.b") [7]).handle (fun _ _ => 0) ⟨0, 0⟩ ⟨.new 0, ∅, 1⟩).1
        fun _ _ => none) :=
  xattrNames_follow (.request _ _ _ (.start 0) (by rw [FuseRequest.NulFree, zero_mem_bytesOf]; decide))

end Runs

end SotFs
