/-
Module: SotFs.Core.Types
Layer: Core
Purpose: Identifiers, node records, edges, errors and provenance entries of the type graph
  (sotfs-graph/src/types.rs, error.rs, provenance.rs). Identifiers and 64-bit counters are natural numbers;
  permission bits, rights, uids and gids keep the source's widths. The clock is an argument of every
  operation that reads it.
Trusted boundary: human-reviewed model
Main exports: Inode, Directory, Capability, Block, XAttr, Edge, Edge.srcNode, Edge.tgtNode, Quota,
  GraphError, ProvenanceEntry
-/
import Mathlib

namespace SotFs

/-- Seconds since the Unix epoch. -/
abbrev Timestamp := Nat

abbrev InodeId := Nat
abbrev DirId := Nat
abbrev CapId := Nat
abbrev TxnId := Nat
abbrev VersionId := Nat
abbrev BlockId := Nat
abbrev XAttrId := Nat
abbrev EdgeId := Nat

/-- A node identifier with its type tag. -/
inductive NodeId where
  | inode (id : InodeId)
  | directory (id : DirId)
  | capability (id : CapId)
  | transaction (id : TxnId)
  | version (id : VersionId)
  | block (id : BlockId)
  | xattr (id : XAttrId)
deriving DecidableEq, Repr

/-! ### Nodes -/

/-- What kind of filesystem object an inode is. -/
inductive VnodeType where
  | regular
  | directory
  | symlink
  | charDevice
  | blockDevice
deriving DecidableEq, Repr

/-- POSIX permission bits. -/
structure Permissions where
  mode : UInt16
deriving DecidableEq, Repr

def Permissions.dirDefault : Permissions := ⟨0o755⟩
def Permissions.fileDefault : Permissions := ⟨0o644⟩

/-- A filesystem object. -/
structure Inode where
  id : InodeId
  vtype : VnodeType
  permissions : Permissions
  uid : UInt32
  gid : UInt32
  size : Nat
  linkCount : Nat
  ctime : Timestamp
  mtime : Timestamp
  atime : Timestamp
deriving DecidableEq, Repr

def Inode.newFile (now : Timestamp) (id : InodeId) (permissions : Permissions) (uid gid : UInt32) :
    Inode where
  id := id
  vtype := .regular
  permissions := permissions
  uid := uid
  gid := gid
  size := 0
  linkCount := 0
  ctime := now
  mtime := now
  atime := now

def Inode.newDir (now : Timestamp) (id : InodeId) (permissions : Permissions) (uid gid : UInt32) :
    Inode where
  id := id
  vtype := .directory
  permissions := permissions
  uid := uid
  gid := gid
  size := 0
  linkCount := 0
  ctime := now
  mtime := now
  atime := now

/-- A namespace container, paired with the inode its "." points to. -/
structure Directory where
  id : DirId
  inodeId : InodeId
deriving DecidableEq, Repr

/-- Capability rights bitmask. -/
structure Rights where
  bits : UInt8
deriving DecidableEq, Repr

namespace Rights

def read : UInt8 := 1
def write : UInt8 := 2
def execute : UInt8 := 4
def grant : UInt8 := 8
def revoke : UInt8 := 16

def contains (r : Rights) (right : UInt8) : Bool := r.bits &&& right == right

def isSubsetOf (r other : Rights) : Bool := r.bits &&& other.bits == r.bits

def restrict (r mask : Rights) : Rights := ⟨r.bits &&& mask.bits⟩

end Rights

structure Capability where
  id : CapId
  rights : Rights
  epoch : Nat
deriving DecidableEq, Repr

/-- The capability and domain on whose behalf operations run. No capability is the anonymous path. -/
structure CapContext where
  capId : Option CapId
  domainId : Nat
deriving DecidableEq, Repr

def CapContext.anonymous : CapContext := ⟨none, 0⟩

inductive TxState where
  | active
  | preparing
  | committed
  | aborted
deriving DecidableEq, Repr

inductive TxTier where
  | tier0
  | tier1
  | tier2
deriving DecidableEq, Repr

/-- A transaction node. No operation of the crate creates one; the pool is checked and persisted. -/
structure Transaction where
  id : TxnId
  tier : TxTier
  state : TxState
  readSet : Std.ExtTreeSet InodeId
  writeSet : Std.ExtTreeSet InodeId
  beginTs : Timestamp

/-- A snapshot node. No operation of the crate creates one; the pool is checked and persisted. -/
structure Version where
  id : VersionId
  timestamp : Timestamp
  rootInodeId : InodeId
deriving DecidableEq, Repr

/-- A block extent. -/
structure Block where
  id : BlockId
  sectorStart : Nat
  sectorCount : Nat
  refcount : Nat
deriving DecidableEq, Repr

inductive XAttrNamespace where
  | user
  | system
  | security
  | trusted
deriving DecidableEq, Repr

structure XAttr where
  id : XAttrId
  ns : XAttrNamespace
  name : String
  value : List UInt8
deriving DecidableEq, Repr

/-- A symlink's target path. -/
structure SymlinkTarget where
  path : String
deriving DecidableEq, Repr

inductive AclTag where
  | userObj
  | user
  | groupObj
  | group
  | mask
  | other
deriving DecidableEq, Repr

structure AclEntry where
  tag : AclTag
  qualifier : UInt32
  permissions : Permissions
deriving DecidableEq, Repr

/-- The largest 64-bit counter value. -/
def u64Max : Nat := 2 ^ 64 - 1

/-- Usage and limits of the subtree below a directory; a limit of `0` is no limit. -/
structure Quota where
  inodeLimit : Nat
  inodeUsage : Nat
  byteLimit : Nat
  byteUsage : Nat
deriving DecidableEq, Repr

namespace Quota

def new (inodeLimit byteLimit : Nat) : Quota := ⟨inodeLimit, 0, byteLimit, 0⟩

def checkInode (q : Quota) : Bool := q.inodeLimit == 0 || decide (q.inodeUsage < q.inodeLimit)

/-- The sum is machine arithmetic on 64 bits. -/
def checkBytes (q : Quota) (additional : Nat) : Bool :=
  q.byteLimit == 0 || decide ((q.byteUsage + additional) % 2 ^ 64 ≤ q.byteLimit)

/-- The `saturating_add` / `saturating_sub` update of one usage counter by a signed delta. -/
def charge (usage : Nat) (delta : Int) : Nat :=
  if 0 < delta then min (usage + delta.toNat) u64Max else usage - (-delta).toNat

/-- Charge both counters. -/
def update (q : Quota) (deltaInodes deltaBytes : Int) : Quota :=
  { q with inodeUsage := charge q.inodeUsage deltaInodes
           byteUsage := charge q.byteUsage deltaBytes }

end Quota

/-! ### Edges -/

/-- A typed edge. -/
inductive Edge where
  /-- Directory to inode, labelled with a file name. -/
  | contains (id : EdgeId) (src : DirId) (tgt : InodeId) (name : String)
  | grants (id : EdgeId) (src : CapId) (tgt : InodeId) (rights : Rights)
  | delegates (id : EdgeId) (src tgt : CapId)
  | derivedFrom (id : EdgeId) (src tgt : VersionId)
  | supersedes (id : EdgeId) (src tgt : InodeId)
  /-- Inode to block, at a byte offset. -/
  | pointsTo (id : EdgeId) (src : InodeId) (tgt : BlockId) (offset : Nat)
  | hasXattr (id : EdgeId) (src : InodeId) (tgt : XAttrId)
deriving DecidableEq, Repr

namespace Edge

def id : Edge → EdgeId
  | .contains id _ _ _ | .grants id _ _ _ | .delegates id _ _ | .derivedFrom id _ _
  | .supersedes id _ _ | .pointsTo id _ _ _ | .hasXattr id _ _ => id

def srcNode : Edge → NodeId
  | .contains _ src _ _ => .directory src
  | .grants _ src _ _ => .capability src
  | .delegates _ src _ => .capability src
  | .derivedFrom _ src _ => .version src
  | .supersedes _ src _ => .inode src
  | .pointsTo _ src _ _ => .inode src
  | .hasXattr _ src _ => .inode src

/-- The source tags the block of a `pointsTo` edge as an inode. -/
def tgtNode : Edge → NodeId
  | .contains _ _ tgt _ => .inode tgt
  | .grants _ _ tgt _ => .inode tgt
  | .delegates _ _ tgt => .capability tgt
  | .derivedFrom _ _ tgt => .version tgt
  | .supersedes _ _ tgt => .inode tgt
  | .pointsTo _ _ tgt _ => .inode tgt
  | .hasXattr _ _ tgt => .xattr tgt

end Edge

/-! ### Errors -/

/-- What `InvariantViolation` reports. The source formats these values into one text. -/
inductive Violation where
  | linkCount (inode : InodeId) (linkCount count : Nat)
  | duplicateName (dir : DirId) (name : String)
  | missingSelfRef (dir : DirId)
  | danglingEdge (edge : EdgeId) (srcExists tgtExists : Bool)
  | blockRefcount (block : BlockId) (refcount actual : Nat)
  | directoryCycle (dir : DirId)
  | capMonotonicity (child : CapId) (childRights : Rights) (parent : CapId) (parentRights : Rights)
  | hardLinkToDir (inode : InodeId) (names : List String)
  | indexedUnderWrongDir (edge : EdgeId) (dir src : DirId)
  | indexEntryWrong (dir : DirId) (name : String) (got want : EdgeId)
  | indexEntryMissing (dir : DirId) (name : String) (edge : EdgeId)
  | indexEntryStale (dir : DirId) (name : String) (edge : EdgeId) (src : DirId) (edgeName : String)
  | indexEntryNotContains (edge : EdgeId)
  | indexEntryDangling (edge : EdgeId)
  | nonActiveCommit
deriving DecidableEq, Repr

/-- The resource a quota error names. -/
inductive Resource where
  | inode
  | bytes
deriving DecidableEq, Repr

/-- `GraphError`, with the variants the modelled functions return. -/
inductive GraphError where
  | inodeNotFound (id : InodeId)
  | dirNotFound (id : DirId)
  | capNotFound (id : CapId)
  | nameExists (dir : DirId) (name : String)
  | dirNotEmpty (dir : DirId)
  | linkToDirectory (id : InodeId)
  | linkCountExceeded (max : Nat)
  | wouldCreateCycle
  | nameNotFound (name : String)
  | notADirectory (id : InodeId)
  | notAFile (id : InodeId)
  | xattrNotFound (name : String)
  | xattrTooLarge (size : Nat)
  | notASymlink (id : InodeId)
  | quotaExceeded (dir : DirId) (resource : Resource)
  | capInsufficientRights (needed held : UInt8)
  | invariantViolation (what : Violation)
deriving DecidableEq, Repr

/-! ### Provenance -/

inductive ProvOp where
  | create
  | mkdir
  | unlink
  | rmdir
  | link
  | rename
  | write
  | chmod
  | chown
  | setxattr
  | removexattr
  | symlink
  | setAcl
  | capDerive
  | capRevoke
  | read
  | stat
  | «open»
  | truncate
deriving DecidableEq, Repr

/-- Who did what to which inode, when, and by which capability. -/
structure ProvenanceEntry where
  timestamp : Timestamp
  op : ProvOp
  inodeId : InodeId
  capId : Option CapId
  domainId : Nat
  detail : String
deriving DecidableEq, Repr

/-- The append-only audit trail, oldest entry first. -/
abbrev ProvenanceLog := List ProvenanceEntry

end SotFs
