/-
Module: SotFs.Core.Fuse
Layer: Core
Purpose: The FUSE requests that change the graph, the two that read attributes, and fsync
  (sotfs-fuse/src/fs.rs). A handler maps the mount to its reply and the mount it leaves; it gives no reply
  when it panics or does not return. The filesystem serves one request after the other. File names are byte
  strings; one that is not UTF-8 is read as the empty name. A served filesystem is the mount with its database
  and notes of what was acknowledged, saved and synced; no step of the source depends on the notes.
Trusted boundary: human-reviewed model
Main exports: FileAttr, FuseReply, XattrReply, Mount, FuseRequest, FuseRequest.handle, persist, fsync, Served,
  ServeStep, Serves
-/
import SotFs.Foundation.Utf8
import SotFs.Core.Storage

namespace SotFs

open Std Foundation

/-- A file name as the kernel passes it. -/
abbrev OsStr := List UInt8

/-- `to_str().unwrap_or("")`. -/
def OsStr.toStr (name : OsStr) : String := (String.fromUTF8? ⟨name.toArray⟩).getD ""

/-- The caller of a request. -/
structure FuseCaller where
  uid : UInt32
  gid : UInt32
deriving DecidableEq, Repr

def ctxFromReq (req : FuseCaller) : CapContext := ⟨none, req.uid.toNat⟩

inductive FileType where
  | regularFile
  | directory
  | symlink
  | charDevice
  | blockDevice
deriving DecidableEq, Repr

/-- File attributes as FUSE reports them. -/
structure FileAttr where
  ino : Nat
  size : Nat
  blocks : Nat
  atime : Timestamp
  mtime : Timestamp
  ctime : Timestamp
  crtime : Timestamp
  kind : FileType
  perm : UInt16
  nlink : Nat
  uid : UInt32
  gid : UInt32
  rdev : Nat
  blksize : Nat
  flags : Nat
deriving DecidableEq, Repr

def BLOCK_SIZE : Nat := 4096

def inodeToAttr (inode : Inode) : FileAttr where
  ino := inode.id
  size := inode.size
  blocks := (inode.size + 511) / 512
  atime := inode.atime
  mtime := inode.mtime
  ctime := inode.ctime
  crtime := inode.ctime
  kind := match inode.vtype with
    | .regular => .regularFile
    | .directory => .directory
    | .symlink => .symlink
    | .charDevice => .charDevice
    | .blockDevice => .blockDevice
  perm := inode.permissions.mode
  nlink := inode.linkCount
  uid := inode.uid
  gid := inode.gid
  rdev := 0
  blksize := BLOCK_SIZE
  flags := 0

inductive Errno where
  | ENOENT
  | ENOTDIR
  | EEXIST
  | ENOTEMPTY
  | EIO
  | EINVAL
  | EPERM
  | ENOTSUP
  | ENODATA
  | ERANGE
deriving DecidableEq, Repr

inductive FuseReply where
  | ok
  | attr (attr : FileAttr)
  | entry (attr : FileAttr)
  | created (attr : FileAttr) (fh : Nat)
  | written (count : Nat)
  | error (errno : Errno)
deriving DecidableEq, Repr

/-- The reply to a request that reads attributes: the size of the answer, or its bytes. -/
inductive XattrReply where
  | size (size : Nat)
  | data (bytes : List UInt8)
  | error (errno : Errno)
deriving DecidableEq, Repr

/-- The filesystem in memory: the graph and the open file handles. -/
structure Mount where
  graph : TypeGraph
  openFiles : ExtTreeMap Nat InodeId
  nextFh : Nat

namespace Fuse

/-- What a handler answers, `none` when no reply is sent, and the mount it leaves. -/
abbrev Handled := Option FuseReply × Mount

/-- Answer with the result of an operation; one that does not return sends no reply. -/
def respond {α : Type} (m : Mount) (result : Outcome α × TypeGraph)
    (onOk : α → TypeGraph → Option FuseReply) (onErr : GraphError → Errno) : Handled :=
  match result with
  | (.ok a, g) => (onOk a g, { m with graph := g })
  | (.err e, g) => (some (.error (onErr e)), { m with graph := g })
  | (.panic, g) => (none, { m with graph := g })
  | (.diverges, g) => (none, { m with graph := g })

/-- Reply with the entry of an inode; `expect` panics when it is unknown. -/
def entryOf (g : TypeGraph) (inodeId : InodeId) : Option FuseReply :=
  (g.getInode inodeId).map fun inode => .entry (inodeToAttr inode)

/-- The permission bits of a mode argument. -/
def permsOf (mode : UInt32) : Permissions := ⟨(mode &&& 0o7777).toUInt16⟩

/-- One step of setattr: apply an operation if it was asked for, and go on unless it failed. -/
def setattrStep {α : Type} (requested : Bool) (op : TypeGraph → Outcome α × TypeGraph) (m : Mount)
    (next : Mount → Handled) : Handled :=
  if requested then
    match op m.graph with
    | (.ok _, g) => next { m with graph := g }
    | (.err _, g) => (some (.error .ENOENT), { m with graph := g })
    | (.panic, g) => (none, { m with graph := g })
    | (.diverges, g) => (none, { m with graph := g })
  else next m

/-- chmod, then chown, then truncate, each if asked for; a failure ends the request. -/
def setattr (now : Nat → Nat → Timestamp) (req : FuseCaller) (ino : InodeId) (mode : Option UInt32)
    (uid gid : Option UInt32) (size : Option Nat) (m : Mount) : Handled :=
  let m := { m with graph := m.graph.setCapCtx (ctxFromReq req) }
  setattrStep mode.isSome (chmod (now 0) ino (permsOf (mode.getD 0)).mode) m fun m =>
  setattrStep (uid.isSome || gid.isSome) (chown (now 1) ino uid gid) m fun m =>
  setattrStep size.isSome (truncate (now 2) ino (size.getD 0)) m fun m =>
  match m.graph.getInode ino with
  | some inode => (some (.attr (inodeToAttr inode)), m)
  | none => (some (.error .ENOENT), m)

def mkdir (now : Nat → Timestamp) (req : FuseCaller) (parent : InodeId) (name : OsStr) (mode : UInt32)
    (m : Mount) : Handled :=
  let g := m.graph.setCapCtx (ctxFromReq req)
  match g.dirForInode parent with
  | none => (some (.error .ENOTDIR), { m with graph := g })
  | some parentDir =>
      respond m (SotFs.mkdir now parentDir name.toStr req.uid req.gid (permsOf mode) g)
        (fun result g => entryOf g result.inodeId) fun _ => .EEXIST

def rmdir (now : Nat → Timestamp) (req : FuseCaller) (parent : InodeId) (name : OsStr) (m : Mount) :
    Handled :=
  let g := m.graph.setCapCtx (ctxFromReq req)
  match g.dirForInode parent with
  | none => (some (.error .ENOTDIR), { m with graph := g })
  | some parentDir =>
      respond m (SotFs.rmdir now parentDir name.toStr g) (fun _ _ => some .ok) fun
        | .dirNotEmpty _ => .ENOTEMPTY
        | .nameNotFound _ => .ENOENT
        | _ => Errno.EIO

/-- A created file is opened: it gets the next file handle. -/
def create (now : Nat → Timestamp) (req : FuseCaller) (parent : InodeId) (name : OsStr) (mode : UInt32)
    (m : Mount) : Handled :=
  let g := m.graph.setCapCtx (ctxFromReq req)
  match g.dirForInode parent with
  | none => (some (.error .ENOTDIR), { m with graph := g })
  | some parentDir =>
      match createFile now parentDir name.toStr req.uid req.gid (permsOf mode) g with
      | (.ok inodeId, g) =>
          ((g.getInode inodeId).map fun inode => .created (inodeToAttr inode) m.nextFh,
            { graph := g, openFiles := m.openFiles.insert m.nextFh inodeId, nextFh := m.nextFh + 1 })
      | (.err _, g) => (some (.error .EEXIST), { m with graph := g })
      | (.panic, g) => (none, { m with graph := g })
      | (.diverges, g) => (none, { m with graph := g })

def unlink (now : Nat → Timestamp) (req : FuseCaller) (parent : InodeId) (name : OsStr) (m : Mount) :
    Handled :=
  let g := m.graph.setCapCtx (ctxFromReq req)
  match g.dirForInode parent with
  | none => (some (.error .ENOTDIR), { m with graph := g })
  | some parentDir =>
      respond m (SotFs.unlink now parentDir name.toStr g) (fun _ _ => some .ok) fun
        | .nameNotFound _ => .ENOENT
        | _ => Errno.EIO

def rename (now : Nat → Timestamp) (req : FuseCaller) (parent : InodeId) (name : OsStr)
    (newparent : InodeId) (newname : OsStr) (m : Mount) : Handled :=
  let g := m.graph.setCapCtx (ctxFromReq req)
  match g.dirForInode parent with
  | none => (some (.error .ENOTDIR), { m with graph := g })
  | some srcDir =>
      match g.dirForInode newparent with
      | none => (some (.error .ENOTDIR), { m with graph := g })
      | some dstDir =>
          respond m (SotFs.rename now srcDir name.toStr dstDir newname.toStr g) (fun _ _ => some .ok) fun
            | .wouldCreateCycle => .EINVAL
            | .nameNotFound _ => .ENOENT
            | _ => Errno.EIO

def link (now : Nat → Timestamp) (req : FuseCaller) (ino newparent : InodeId) (newname : OsStr)
    (m : Mount) : Handled :=
  let g := m.graph.setCapCtx (ctxFromReq req)
  match g.dirForInode newparent with
  | none => (some (.error .ENOTDIR), { m with graph := g })
  | some parentDir =>
      respond m (SotFs.link now parentDir newname.toStr ino g) (fun _ g => entryOf g ino) fun
        | .linkToDirectory _ => .EPERM
        | .nameExists _ _ => .EEXIST
        | _ => Errno.EIO

/-- The offset is cast to 64 bits without a sign, the count of written bytes to 32 bits. -/
def write (now : Nat → Timestamp) (req : FuseCaller) (ino : InodeId) (offset : Int) (data : List UInt8)
    (m : Mount) : Handled :=
  let g := m.graph.setCapCtx (ctxFromReq req)
  respond m (writeData now ino (offset % 2 ^ 64).toNat data g)
    (fun written _ => some (.written (written % 2 ^ 32))) fun _ => Errno.EIO

def symlink (now : Nat → Timestamp) (req : FuseCaller) (parent : InodeId) (name target : OsStr)
    (m : Mount) : Handled :=
  let g := m.graph.setCapCtx (ctxFromReq req)
  match g.dirForInode parent with
  | none => (some (.error .ENOTDIR), { m with graph := g })
  | some parentDir =>
      respond m (SotFs.symlink now parentDir name.toStr target.toStr req.uid req.gid g)
        (fun inodeId g => entryOf g inodeId) fun
          | .nameExists _ _ => .EEXIST
          | _ => Errno.EIO

/-- Split a FUSE attribute name at its first dot into namespace and name. -/
def splitXattr (name : String) : Option (XAttrNamespace × String) :=
  let (space, rest) := name.toList.span (· ≠ '.')
  match rest with
  | [] => none
  | _ :: rest =>
      match String.ofList space with
      | "user" => some (.user, String.ofList rest)
      | "system" => some (.system, String.ofList rest)
      | "security" => some (.security, String.ofList rest)
      | "trusted" => some (.trusted, String.ofList rest)
      | _ => none

/-- An unknown namespace is refused before the context is set. -/
def setxattr (now : Nat → Timestamp) (req : FuseCaller) (ino : InodeId) (name : OsStr)
    (value : List UInt8) (m : Mount) : Handled :=
  match splitXattr name.toStr with
  | none => (some (.error .ENOTSUP), m)
  | some (ns, attr) =>
      let g := m.graph.setCapCtx (ctxFromReq req)
      respond m (SotFs.setxattr now ino ns attr value g) (fun _ _ => some .ok) fun
        | .inodeNotFound _ => .ENOENT
        | _ => Errno.EIO

def removexattr (now : Nat → Timestamp) (req : FuseCaller) (ino : InodeId) (name : OsStr) (m : Mount) :
    Handled :=
  match splitXattr name.toStr with
  | none => (some (.error .ENOTSUP), m)
  | some (ns, attr) =>
      let g := m.graph.setCapCtx (ctxFromReq req)
      respond m (SotFs.removexattr now ino ns attr g) (fun _ _ => some .ok) fun
        | .xattrNotFound _ => .ENODATA
        | .inodeNotFound _ => .ENOENT
        | _ => Errno.EIO

/-- Answer a read of attributes into a buffer of the given size; size `0` asks for the length. Lengths are cast
    to 32 bits. -/
def replyBytes (size : Nat) (bytes : List UInt8) : XattrReply :=
  if size = 0 then .size (bytes.length % 2 ^ 32)
  else if size < bytes.length % 2 ^ 32 then .error .ERANGE
  else .data bytes

def getxattr (ino : InodeId) (name : OsStr) (size : Nat) (m : Mount) : Option XattrReply :=
  match splitXattr name.toStr with
  | none => some (.error .ENOTSUP)
  | some (ns, attr) =>
      match SotFs.getxattr m.graph ino ns attr with
      | .ok value => some (replyBytes size value)
      | .err (.xattrNotFound _) => some (.error .ENODATA)
      | .err (.inodeNotFound _) => some (.error .ENOENT)
      | .err _ => some (.error Errno.EIO)
      | .panic | .diverges => none

def xattrPrefix : XAttrNamespace → String
  | .user => "user."
  | .system => "system."
  | .security => "security."
  | .trusted => "trusted."

/-- The answer of listxattr: each name with its namespace and a NUL. -/
def xattrBuffer (names : List (XAttrNamespace × String)) : List UInt8 :=
  names.flatMap fun name => bytesOf (xattrPrefix name.1) ++ bytesOf name.2 ++ [0]

def listxattr (ino : InodeId) (size : Nat) (m : Mount) : Option XattrReply :=
  match SotFs.listxattr m.graph ino with
  | .ok names => some (replyBytes size (xattrBuffer names))
  | .err (.inodeNotFound _) => some (.error .ENOENT)
  | .err _ => some (.error Errno.EIO)
  | .panic | .diverges => none

end Fuse

/-- A request that may change the graph, with the arguments its handler reads. -/
inductive FuseRequest where
  | setattr (ino : InodeId) (mode uid gid : Option UInt32) (size : Option Nat)
  | mkdir (parent : InodeId) (name : OsStr) (mode : UInt32)
  | rmdir (parent : InodeId) (name : OsStr)
  | create (parent : InodeId) (name : OsStr) (mode : UInt32)
  | unlink (parent : InodeId) (name : OsStr)
  | rename (parent : InodeId) (name : OsStr) (newparent : InodeId) (newname : OsStr)
  | link (ino newparent : InodeId) (newname : OsStr)
  | write (ino : InodeId) (offset : Int) (data : List UInt8)
  | symlink (parent : InodeId) (name target : OsStr)
  | setxattr (ino : InodeId) (name : OsStr) (value : List UInt8)
  | removexattr (ino : InodeId) (name : OsStr)
deriving DecidableEq, Repr

/-- Serve one request; `now` has the clock readings of each operation it calls. -/
def FuseRequest.handle (now : Nat → Nat → Timestamp) (req : FuseCaller) (m : Mount) :
    FuseRequest → Option FuseReply × Mount
  | .setattr ino mode uid gid size => Fuse.setattr now req ino mode uid gid size m
  | .mkdir parent name mode => Fuse.mkdir (now 0) req parent name mode m
  | .rmdir parent name => Fuse.rmdir (now 0) req parent name m
  | .create parent name mode => Fuse.create (now 0) req parent name mode m
  | .unlink parent name => Fuse.unlink (now 0) req parent name m
  | .rename parent name newparent newname => Fuse.rename (now 0) req parent name newparent newname m
  | .link ino newparent newname => Fuse.link (now 0) req ino newparent newname m
  | .write ino offset data => Fuse.write (now 0) req ino offset data m
  | .symlink parent name target => Fuse.symlink (now 0) req parent name target m
  | .setxattr ino name value => Fuse.setxattr (now 0) req ino name value m
  | .removexattr ino name => Fuse.removexattr (now 0) req ino name m

/-! ### Persistence of a mount -/

section Persist

variable {Bytes Db : Type}

/-- `with_db`: the stored graph, or a new one when there is none; the log is enabled unless disabled. -/
def Mount.withDb (backend : RedbBackend Bytes Db) (now : Timestamp) (disableProvenance : Bool) (db : Db) :
    Except String Mount :=
  match backend.load db with
  | .error e => .error e
  | .ok stored =>
      let graph := stored.getD (.new now)
      .ok ⟨if disableProvenance then graph else graph.enableProvLog, ∅, 1⟩

/-- Save the current graph; an error is printed and dropped. -/
def persist (backend : RedbBackend Bytes Db) (m : Mount) (db : Db) : Db := (backend.save m.graph db).2

/-- Drain the log if a sidecar file is configured. The file itself is not part of the model. -/
def persistProvLog (sidecar : Bool) (m : Mount) : Mount :=
  if sidecar then { m with graph := { m.graph with provLog := m.graph.provLog.map fun _ => [] } } else m

def fsync (backend : RedbBackend Bytes Db) (sidecar : Bool) (m : Mount) (db : Db) :
    FuseReply × Mount × Db :=
  let db := persist backend m db
  let m := persistProvLog sidecar m
  (.ok, m, db)

/-- A request that was answered. -/
structure Acknowledged where
  now : Nat → Nat → Timestamp
  req : FuseCaller
  request : FuseRequest

/-- What a list of requests makes of a mount. -/
def Mount.replay (m : Mount) (requests : List Acknowledged) : Mount :=
  requests.foldl (fun m r => (r.request.handle r.now r.req m).2) m

/-- A mounted filesystem with its database. The other fields are notes: the graph that was saved last, the
    changing requests answered so far, how many of them the saved graph carries, and how many had been
    answered when the last fsync that replied ok began. -/
structure Served (Db : Type) where
  mount : Mount
  db : Db
  saved : Option TypeGraph
  requests : List Acknowledged
  carried : Nat
  synced : Nat

namespace Served

def start (mount : Mount) (db : Db) (saved : Option TypeGraph) : Served Db := ⟨mount, db, saved, [], 0, 0⟩

def mutate (s : Served Db) (r : Acknowledged) : Served Db :=
  { s with mount := (r.request.handle r.now r.req s.mount).2, requests := s.requests ++ [r] }

/-- The note of a save that succeeded. -/
def noteSave (backend : RedbBackend Bytes Db) (s : Served Db) : Served Db :=
  match (backend.save s.mount.graph s.db).1 with
  | .ok () => { s with saved := some s.mount.graph, carried := s.requests.length }
  | .error _ => s

def persist (backend : RedbBackend Bytes Db) (s : Served Db) : Served Db :=
  { s.noteSave backend with db := SotFs.persist backend s.mount s.db }

def fsync (backend : RedbBackend Bytes Db) (sidecar : Bool) (s : Served Db) : Served Db :=
  let (_, mount, db) := SotFs.fsync backend sidecar s.mount s.db
  { s.noteSave backend with mount := mount, db := db, synced := s.requests.length }

end Served

/-- One step; `allowed` is a condition on the state in which an fsync that replies begins. A save without a
    reply is an unmount, or an fsync that a crash cuts off after the commit. A request that is not answered
    ends the daemon, as a crash at any state does; the database is left as that state has it. -/
inductive ServeStep (backend : RedbBackend Bytes Db) (sidecar : Bool) (allowed : Served Db → Prop)
    (s : Served Db) : Served Db → Prop where
  | mutate (r : Acknowledged) (hreply : (r.request.handle r.now r.req s.mount).1.isSome = true) :
      ServeStep backend sidecar allowed s (s.mutate r)
  | persist : ServeStep backend sidecar allowed s (s.persist backend)
  | fsync (hallowed : allowed s) : ServeStep backend sidecar allowed s (s.fsync backend sidecar)

/-- Any sequence of requests. -/
abbrev Serves (backend : RedbBackend Bytes Db) (sidecar : Bool) (allowed : Served Db → Prop) :
    Served Db → Served Db → Prop :=
  Relation.ReflTransGen (ServeStep backend sidecar allowed)

end Persist

end SotFs
