/-
Module: SotFs.Core.FuseReads
Layer: Core
Purpose: The other requests of the FUSE boundary (sotfs-fuse/src/fs.rs): lookup, getattr, open, read, release,
  opendir, releasedir, readlink, statfs, access and flush, and with readdir, the two reads of attributes and
  fsync one type for all that the kernel asks a mount. Of these only open and release change the mount, its file
  handles, and fsync drains the log; what fsync saves is not followed here.
Trusted boundary: human-reviewed model
Main exports: FsStats, QueryReply, FuseQuery, FuseQuery.handle, Mount.new, KernelRequest, KernelReply,
  KernelRequest.handle
-/
import SotFs.Core.Readdir

namespace SotFs

open Std Foundation

/-- What statfs reports. -/
structure FsStats where
  blocks : Nat
  bfree : Nat
  bavail : Nat
  files : Nat
  ffree : Nat
  bsize : Nat
  namelen : Nat
  frsize : Nat
deriving DecidableEq, Repr

/-- The reply to a request that changes no file; `denied` is EACCES. -/
inductive QueryReply where
  | ok
  | attr (attr : FileAttr)
  | entry (attr : FileAttr)
  | opened (fh : Nat)
  | data (bytes : List UInt8)
  | dirents (entries : List DirEntry)
  | xattr (reply : XattrReply)
  | statfs (stats : FsStats)
  | denied
  | error (errno : Errno)
deriving DecidableEq, Repr

namespace Fuse

/-- Resolve a name in a directory. -/
def lookup (parent : InodeId) (name : OsStr) (g : TypeGraph) : QueryReply :=
  match g.dirForInode parent with
  | none => .error .ENOTDIR
  | some parentDir =>
      match g.resolveName parentDir name.toStr with
      | some inodeId =>
          match g.getInode inodeId with
          | some inode => .entry (inodeToAttr inode)
          | none => .error .ENOENT
      | none => .error .ENOENT

def getattr (ino : InodeId) (g : TypeGraph) : QueryReply :=
  match g.getInode ino with
  | some inode => .attr (inodeToAttr inode)
  | none => .error .ENOENT

/-- `open`: the next file handle stands for the inode. -/
def openFile (ino : InodeId) (m : Mount) : QueryReply × Mount :=
  if m.graph.containsInode ino then
    (.opened m.nextFh, { m with openFiles := m.openFiles.insert m.nextFh ino, nextFh := m.nextFh + 1 })
  else (.error .ENOENT, m)

/-- The offset is cast to 64 bits without a sign. No reply is sent when the slice arithmetic panics. -/
def read (ino : InodeId) (offset : Int) (size : Nat) (g : TypeGraph) : Option QueryReply :=
  match readData g ino (offset % 2 ^ 64).toNat size with
  | .ok data => some (.data data)
  | .err _ => some (.error Errno.EIO)
  | .panic | .diverges => none

def release (fh : Nat) (m : Mount) : QueryReply × Mount :=
  (.ok, { m with openFiles := m.openFiles.erase fh })

/-- Directories are read without a handle. -/
def opendir (ino : InodeId) (g : TypeGraph) : QueryReply :=
  if (g.dirForInode ino).isSome then .opened 0 else .error .ENOTDIR

def readlink (ino : InodeId) (g : TypeGraph) : Option QueryReply :=
  match SotFs.readlink g ino with
  | .ok target => some (.data (bytesOf target))
  | .err (.inodeNotFound _) => some (.error .ENOENT)
  | .err _ => some (.error .EINVAL)
  | .panic | .diverges => none

/-- One block for each inode and each directory, and plenty of space. -/
def statfs (g : TypeGraph) : QueryReply :=
  let used := g.inodes.iter.length + g.dirs.iter.length
  let total := 2 ^ 30
  let free := total - used
  .statfs ⟨total, free, free, used, free, BLOCK_SIZE, 255, BLOCK_SIZE⟩

/-- The mask and the permission bits of the caller's class have the same three bits. -/
def access (req : FuseCaller) (ino : InodeId) (mask : Int32) (g : TypeGraph) : QueryReply :=
  match g.getInode ino with
  | none => .error .ENOENT
  | some inode =>
      if mask = 0 then .ok
      else
        let mode := inode.permissions.mode
        let perms : Int32 :=
          if req.uid = 0 then 7
          else if req.uid = inode.uid then ((mode >>> 6) &&& 7).toUInt32.toInt32
          else if req.gid = inode.gid then ((mode >>> 3) &&& 7).toUInt32.toInt32
          else (mode &&& 7).toUInt32.toInt32
        let want := mask &&& 7
        if perms &&& want = want then .ok else .denied

end Fuse

/-- A request that changes no file. Whether a reply of readdir takes one more entry is up to its buffer. -/
inductive FuseQuery where
  | lookup (parent : InodeId) (name : OsStr)
  | getattr (ino : InodeId)
  | readdir (full : List DirEntry → DirEntry → Bool) (ino : InodeId) (offset : Nat)
  | openFile (ino : InodeId)
  | read (ino : InodeId) (offset : Int) (size : Nat)
  | release (fh : Nat)
  | opendir (ino : InodeId)
  | releasedir
  | readlink (ino : InodeId)
  | statfs
  | access (ino : InodeId) (mask : Int32)
  | flush
  | getxattr (ino : InodeId) (name : OsStr) (size : Nat)
  | listxattr (ino : InodeId) (size : Nat)

/-- Serve one of them. -/
def FuseQuery.handle (req : FuseCaller) (m : Mount) : FuseQuery → Option QueryReply × Mount
  | .lookup parent name => (some (Fuse.lookup parent name m.graph), m)
  | .getattr ino => (some (Fuse.getattr ino m.graph), m)
  | .readdir full ino offset =>
      match Fuse.readdir full ino offset m.graph with
      | .ok entries => (some (.dirents entries), m)
      | .error e => (some (.error e), m)
  | .openFile ino => (some (Fuse.openFile ino m).1, (Fuse.openFile ino m).2)
  | .read ino offset size => (Fuse.read ino offset size m.graph, m)
  | .release fh => (some (Fuse.release fh m).1, (Fuse.release fh m).2)
  | .opendir ino => (some (Fuse.opendir ino m.graph), m)
  | .releasedir => (some .ok, m)
  | .readlink ino => (Fuse.readlink ino m.graph, m)
  | .statfs => (some (Fuse.statfs m.graph), m)
  | .access ino mask => (some (Fuse.access req ino mask m.graph), m)
  | .flush => (some .ok, m)
  | .getxattr ino name size => ((Fuse.getxattr ino name size m).map .xattr, m)
  | .listxattr ino size => ((Fuse.listxattr ino size m).map .xattr, m)

/-- `new`: an ephemeral mount; provenance is logged unless disabled. -/
def Mount.new (now : Timestamp) (disableProvenance : Bool) : Mount :=
  let g := TypeGraph.new now
  ⟨if disableProvenance then g else g.enableProvLog, ∅, 1⟩

/-- What the kernel asks of a mount. -/
inductive KernelRequest where
  | change (now : Nat → Nat → Timestamp) (request : FuseRequest)
  | ask (query : FuseQuery)
  | fsync (sidecar : Bool)

inductive KernelReply where
  | changed (reply : FuseReply)
  | answered (reply : QueryReply)
deriving DecidableEq, Repr

/-- Serve one request; `none` when no reply is sent. -/
def KernelRequest.handle (req : FuseCaller) (m : Mount) : KernelRequest → Option KernelReply × Mount
  | .change now request => ((request.handle now req m).1.map .changed, (request.handle now req m).2)
  | .ask query => ((query.handle req m).1.map .answered, (query.handle req m).2)
  | .fsync sidecar => (some (.changed .ok), persistProvLog sidecar m)

end SotFs
