/-
Module: SotFs.Core.Runs
Layer: Core
Purpose: The sixteen mutating operations as one type of calls, and the runs a mounted graph goes through:
  any sequence of calls from `TypeGraph::new()`, failed calls included, with the capability context and the
  provenance log switched at any point in between. A run is in capacity when no arena insertion is refused:
  every node and edge a call issued an id for is in its arena when the call returns.
Trusted boundary: human-reviewed model
Main exports: Op, Reply, Op.apply, Op.LiveDirs, Accepted, Run, Reachable, TypeGraph.calls, Run.calls, Calls,
  Op.right
-/
import SotFs.Core.Ops
import SotFs.Core.Checks

namespace SotFs

/-- A call of a mutating operation with its arguments. -/
inductive Op where
  | createFile (parentDir : DirId) (name : String) (uid gid : UInt32) (permissions : Permissions)
  | mkdir (parentDir : DirId) (name : String) (uid gid : UInt32) (permissions : Permissions)
  | rmdir (parentDir : DirId) (name : String)
  | link (dir : DirId) (name : String) (targetInode : InodeId)
  | unlink (dir : DirId) (name : String)
  | rename (srcDir : DirId) (srcName : String) (dstDir : DirId) (dstName : String)
  | symlink (parentDir : DirId) (name target : String) (uid gid : UInt32)
  | writeBlock (inodeId : InodeId) (offset sectorStart sectorCount : Nat)
  | writeData (inodeId : InodeId) (offset : Nat) (data : List UInt8)
  | truncate (inodeId : InodeId) (newSize : Nat)
  | chmod (inodeId : InodeId) (mode : UInt16)
  | chown (inodeId : InodeId) (uid gid : Option UInt32)
  | setxattr (inodeId : InodeId) (ns : XAttrNamespace) (name : String) (value : List UInt8)
  | removexattr (inodeId : InodeId) (ns : XAttrNamespace) (name : String)
  | setacl (inodeId : InodeId) (entries : List AclEntry)
  | setQuota (dirId : DirId) (inodeLimit byteLimit : Nat)
deriving DecidableEq, Repr

/-- What a successful call returns. -/
inductive Reply where
  | done
  | inode (id : InodeId)
  | created (result : CreateResult)
  | block (id : BlockId)
  | written (count : Nat)
  | xattr (id : XAttrId)
deriving DecidableEq, Repr

/-- The inode a call returns. -/
def Reply.newInode : Reply → Option InodeId
  | .inode i => some i
  | .created result => some result.inodeId
  | _ => none

/-- Rename the value of a successful outcome. -/
def Outcome.map {α β : Type} (f : α → β) : Outcome α → Outcome β
  | .ok a => .ok (f a)
  | .err e => .err e
  | .panic => .panic
  | .diverges => .diverges

/-- Run one call: its outcome and the graph it leaves. -/
def Op.apply (now : Nat → Timestamp) (g : TypeGraph) : Op → Outcome Reply × TypeGraph
  | .createFile d n u gr p => (SotFs.createFile now d n u gr p g).map (Outcome.map .inode) id
  | .mkdir d n u gr p => (SotFs.mkdir now d n u gr p g).map (Outcome.map .created) id
  | .rmdir d n => (SotFs.rmdir now d n g).map (Outcome.map fun _ => .done) id
  | .link d n t => (SotFs.link now d n t g).map (Outcome.map fun _ => .done) id
  | .unlink d n => (SotFs.unlink now d n g).map (Outcome.map fun _ => .done) id
  | .rename sd sn dd dn => (SotFs.rename now sd sn dd dn g).map (Outcome.map fun _ => .done) id
  | .symlink d n t u gr => (SotFs.symlink now d n t u gr g).map (Outcome.map .inode) id
  | .writeBlock i o s c => (SotFs.writeBlock i o s c g).map (Outcome.map .block) id
  | .writeData i o b => (SotFs.writeData now i o b g).map (Outcome.map .written) id
  | .truncate i n => (SotFs.truncate now i n g).map (Outcome.map fun _ => .done) id
  | .chmod i m => (SotFs.chmod now i m g).map (Outcome.map fun _ => .done) id
  | .chown i u gr => (SotFs.chown now i u gr g).map (Outcome.map fun _ => .done) id
  | .setxattr i ns n v => (SotFs.setxattr now i ns n v g).map (Outcome.map .xattr) id
  | .removexattr i ns n => (SotFs.removexattr now i ns n g).map (Outcome.map fun _ => .done) id
  | .setacl i es => (SotFs.setacl now i es g).map (Outcome.map fun _ => .done) id
  | .setQuota d il bl => (SotFs.setQuota d il bl g).map (Outcome.map fun _ => .done) id

/-- The directory arguments of a call. -/
def Op.dirs : Op → List DirId
  | .createFile d .. | .mkdir d .. | .rmdir d _ | .link d .. | .unlink d _ | .symlink d ..
  | .setQuota d .. => [d]
  | .rename sd _ dd _ => [sd, dd]
  | _ => []

/-- Whether an optional value is there and as wanted. -/
def decideSome {α : Type} (o : Option α) (p : α → Prop) [DecidablePred p] :
    Decidable (∃ a, o = some a ∧ p a) :=
  decidable_of_iff (o.any fun a => p a) (by simp [Option.any_eq_true])

/-- `d` names a live directory: the directory stored at its slot has this id. -/
def TypeGraph.LiveDir (g : TypeGraph) (d : DirId) : Prop := ∃ dir, g.getDir d = some dir ∧ dir.id = d

instance (g : TypeGraph) (d : DirId) : Decidable (g.LiveDir d) := decideSome _ _

/-- Every directory argument names a live directory. -/
def Op.LiveDirs (g : TypeGraph) (op : Op) : Prop := ∀ d ∈ op.dirs, g.LiveDir d

instance (g : TypeGraph) (op : Op) : Decidable (op.LiveDirs g) :=
  inferInstanceAs (Decidable (∀ d ∈ op.dirs, g.LiveDir d))

/-- No arena insertion was refused on the way from `g` to `g'`: whatever was issued an id is stored. -/
structure Accepted (g g' : TypeGraph) : Prop where
  inode : ∀ id, g.nextInode ≤ id → id < g'.nextInode → ∃ i, g'.getInode id = some i ∧ i.id = id
  dir : ∀ id, g.nextDir ≤ id → id < g'.nextDir → ∃ d, g'.getDir id = some d ∧ d.id = id
  cap : ∀ id, g.nextCap ≤ id → id < g'.nextCap → ∃ c, g'.getCap id = some c ∧ c.id = id
  block : ∀ id, g.nextBlock ≤ id → id < g'.nextBlock → ∃ b, g'.getBlock id = some b ∧ b.id = id
  edge : ∀ id, g.nextEdge ≤ id → id < g'.nextEdge → ∃ e, g'.getEdge id = some e ∧ e.id = id

/-- Whether every id from `lo` up to `hi` leads to a record that carries it. -/
def decideStored {α : Type} (get : Nat → Option α) (idOf : α → Nat) (lo hi : Nat) :
    Decidable (∀ id, lo ≤ id → id < hi → ∃ a, get id = some a ∧ idOf a = id) :=
  haveI : DecidablePred fun id => ∃ a, get id = some a ∧ idOf a = id := fun id => decideSome (get id) _
  Nat.decidableLoHi lo hi _

instance (g g' : TypeGraph) : Decidable (Accepted g g') :=
  haveI := decideStored g'.getInode Inode.id g.nextInode g'.nextInode
  haveI := decideStored g'.getDir Directory.id g.nextDir g'.nextDir
  haveI := decideStored g'.getCap Capability.id g.nextCap g'.nextCap
  haveI := decideStored g'.getBlock Block.id g.nextBlock g'.nextBlock
  haveI := decideStored g'.getEdge Edge.id g.nextEdge g'.nextEdge
  decidable_of_iff (_ ∧ _ ∧ _ ∧ _ ∧ _)
    ⟨fun ⟨hi, hd, hc, hb, he⟩ => ⟨hi, hd, hc, hb, he⟩,
      fun h => ⟨h.inode, h.dir, h.cap, h.block, h.edge⟩⟩

/-- The graphs reached from `TypeGraph::new()` by calls that satisfy `allowed`, a condition on the call, the
    graph before it and the graph after it. -/
inductive Run (allowed : TypeGraph → Op → TypeGraph → Prop) : TypeGraph → Prop where
  | new (now : Timestamp) : Run allowed (.new now)
  | call {g : TypeGraph} (now : Nat → Timestamp) (op : Op) :
      Run allowed g → allowed g op (op.apply now g).2 → Run allowed (op.apply now g).2
  | setCapCtx {g : TypeGraph} (ctx : CapContext) : Run allowed g → Run allowed (g.setCapCtx ctx)
  | enableProvLog {g : TypeGraph} : Run allowed g → Run allowed g.enableProvLog
  | disableProvLog {g : TypeGraph} : Run allowed g → Run allowed g.disableProvLog

/-- A call with live directory arguments in whose course no arena insertion is refused. -/
def InCapacityCall (g : TypeGraph) (op : Op) (g' : TypeGraph) : Prop :=
  op.LiveDirs g ∧ Accepted g g'

instance (g : TypeGraph) (op : Op) (g' : TypeGraph) : Decidable (InCapacityCall g op g') :=
  inferInstanceAs (Decidable (_ ∧ _))

/-- The graphs of the in-capacity runs with live directory arguments. -/
abbrev Reachable : TypeGraph → Prop := Run InCapacityCall

/-- A stronger condition on the calls reaches fewer graphs. -/
theorem Run.mono {P Q : TypeGraph → Op → TypeGraph → Prop} (h : ∀ g op g', P g op g' → Q g op g')
    {g : TypeGraph} (hrun : Run P g) : Run Q g := by
  induction hrun with
  | new now => exact .new now
  | call now op _ hallowed ih => exact .call now op ih (h _ _ _ hallowed)
  | setCapCtx ctx _ ih => exact .setCapCtx ctx ih
  | enableProvLog _ ih => exact .enableProvLog ih
  | disableProvLog _ ih => exact .disableProvLog ih

/-- The graph after a list of calls. -/
def TypeGraph.calls (now : Nat → Timestamp) (g : TypeGraph) (ops : List Op) : TypeGraph :=
  ops.foldl (fun g op => (op.apply now g).2) g

/-- Every call of the list is allowed where it happens. -/
def AllAllowed (allowed : TypeGraph → Op → TypeGraph → Prop) (now : Nat → Timestamp) :
    TypeGraph → List Op → Prop
  | _, [] => True
  | g, op :: ops =>
      allowed g op (op.apply now g).2 ∧ AllAllowed allowed now (op.apply now g).2 ops

instance decideAllAllowed (allowed : TypeGraph → Op → TypeGraph → Prop)
    [∀ g op g', Decidable (allowed g op g')] (now : Nat → Timestamp) :
    ∀ g ops, Decidable (AllAllowed allowed now g ops)
  | _, [] => inferInstanceAs (Decidable True)
  | g, op :: ops =>
      haveI := decideAllAllowed allowed now (op.apply now g).2 ops
      inferInstanceAs (Decidable (allowed g op (op.apply now g).2 ∧ _))

/-- A list of allowed calls extends a run. -/
theorem Run.calls {allowed : TypeGraph → Op → TypeGraph → Prop} {now : Nat → Timestamp} (ops : List Op) :
    ∀ {g : TypeGraph}, Run allowed g → AllAllowed allowed now g ops → Run allowed (g.calls now ops) := by
  induction ops with
  | nil =>
      intro g hrun _
      exact hrun
  | cons op ops ih =>
      intro g hrun hall
      exact ih (.call now op hrun hall.1) hall.2

/-- One call of a sequence, from any graph. -/
inductive CallStep (allowed : TypeGraph → Op → TypeGraph → Prop) (g : TypeGraph) : TypeGraph → Prop where
  | call (now : Nat → Timestamp) (op : Op) :
      allowed g op (op.apply now g).2 → CallStep allowed g (op.apply now g).2

/-- A sequence of calls under one context, from any graph. -/
abbrev Calls (allowed : TypeGraph → Op → TypeGraph → Prop) : TypeGraph → TypeGraph → Prop :=
  Relation.ReflTransGen (CallStep allowed)

/-- A sequence of allowed calls extends a run. -/
theorem Run.trans {allowed : TypeGraph → Op → TypeGraph → Prop} {g g' : TypeGraph} (hrun : Run allowed g)
    (hcalls : Calls allowed g g') : Run allowed g' := by
  induction hcalls with
  | refl => exact hrun
  | tail _ hstep ih =>
      obtain ⟨now, op, hcall⟩ := hstep
      exact .call now op ih hcall

/-- The right that the admission check of a call asks for. -/
def Op.right : Op → UInt8
  | .chmod .. | .chown .. | .setacl .. | .setQuota .. => Rights.grant
  | _ => Rights.write

end SotFs
