/-
Module: SotFs.Spec.FileService
Layer: Spec
Purpose: The service that a mount is meant to give: a tree of files with the file handles that are open, and for
  each request of the kernel the replies that it may get and what is served after it. Every reply is settled by
  the tree, but for the order in which a directory or the attributes of a node are listed.
Trusted boundary: human-reviewed specification
Main exports: FileService, FileService.serve, FileTree.access, FileService.Answers, FileService.Replies,
  KernelRequest.Outgrows
-/
import SotFs.Foundation.Buffers
import SotFs.Core.FuseReads
import SotFs.Spec.FileTree

namespace SotFs

open Std Foundation

namespace FileTree

variable (t : FileTree)

open Classical in
noncomputable def lookup (parent : InodeId) (name : String) : QueryReply :=
  if ¬ t.IsDir parent then .error .ENOTDIR
  else
    match (t.entry (parent, name)).bind t.node with
    | none => .error .ENOENT
    | some v => .entry (inodeToAttr v.inode)

def getattr (i : InodeId) : QueryReply :=
  match t.node i with
  | none => .error .ENOENT
  | some v => .attr (inodeToAttr v.inode)

/-- The bytes from the offset on, at most `size` of them. -/
def read (i : InodeId) (offset size : Nat) : QueryReply :=
  match t.node i with
  | none => .error Errno.EIO
  | some v => if v.inode.vtype = .regular then .data ((v.content.drop offset).take size) else .error Errno.EIO

def readlink (i : InodeId) : QueryReply :=
  match t.node i with
  | none => .error .ENOENT
  | some v =>
      match v.inode.vtype, v.target with
      | .symlink, some target => .data (bytesOf target.path)
      | _, _ => .error .EINVAL

/-- How many nodes there are, and how many of them are directories. -/
noncomputable def statfs : QueryReply :=
  let used := {i | t.node i ≠ none}.ncard + {i | t.IsDir i}.ncard
  .statfs ⟨2 ^ 30, 2 ^ 30 - used, 2 ^ 30 - used, used, 2 ^ 30 - used, BLOCK_SIZE, 255, BLOCK_SIZE⟩

/-- Where the permission bits of the caller's class begin. -/
def classShift (req : FuseCaller) (inode : Inode) : Nat :=
  if req.uid = inode.uid then 6 else if req.gid = inode.gid then 3 else 0

/-- Each of the three bits of the mask is granted to the caller's class; to the superuser all are. -/
def Permits (req : FuseCaller) (inode : Inode) (mask : Int32) : Prop :=
  req.uid = 0 ∨ ∀ b < 3, mask.toBitVec.getLsbD b = true →
    inode.permissions.mode.toBitVec.getLsbD (classShift req inode + b) = true

open Classical in
noncomputable def access (req : FuseCaller) (i : InodeId) (mask : Int32) : QueryReply :=
  match t.node i with
  | none => .error .ENOENT
  | some v => if Permits req v.inode mask then .ok else .denied

def getxattr (i : InodeId) (name : String) (size : Nat) : XattrReply :=
  match Fuse.splitXattr name with
  | none => .error .ENOTSUP
  | some key =>
      match t.node i with
      | none => .error .ENOENT
      | some v =>
          match v.xattr key with
          | none => .error .ENODATA
          | some value => Fuse.replyBytes size value

/-- The names of a directory with what they lead to, in some order. -/
def Lists (i : InodeId) (listing : List (String × InodeId)) : Prop :=
  listing.Nodup ∧ ∀ n j, (n, j) ∈ listing ↔ t.entry (i, n) = some j

/-- What readdir says of the name at a position of a listing. -/
def dirent (listed : (String × InodeId) × Nat) : DirEntry where
  ino := listed.1.2
  offset := listed.2 + 1
  kind := match t.node listed.1.2 with
    | some v =>
        match v.inode.vtype with
        | .directory => .directory
        | .symlink => .symlink
        | _ => .regularFile
    | none => .regularFile
  name := listed.1.1

/-- Entries are taken until the buffer is full. -/
def fill (full : List DirEntry → DirEntry → Bool) : List DirEntry → List DirEntry → List DirEntry
  | [], reply => reply
  | entry :: entries, reply => if full reply entry then reply else fill full entries (reply ++ [entry])

end FileTree

/-- The files with the file handles that are open. -/
@[ext] structure FileService where
  tree : FileTree
  opened : Nat → Option InodeId
  nextFh : Nat

namespace FileService

def new (now : Timestamp) : FileService := ⟨.new now, fun _ => none, 1⟩

/-- The reply to a changing request and what is served after it: a file that is created is opened. -/
noncomputable def serve (now : Nat → Nat → Timestamp) (req : FuseCaller) (s : FileService) (request : FuseRequest) :
    FuseReply × FileService :=
  match s.tree.serve now req s.nextFh request with
  | (.created attr fh, tree) => (.created attr fh, ⟨tree, Function.update s.opened fh (some attr.ino), fh + 1⟩)
  | (reply, tree) => (reply, { s with tree := tree })

/-- The next file handle stands for the inode. -/
def openFile (s : FileService) (i : InodeId) : FileService :=
  { s with opened := Function.update s.opened s.nextFh (some i), nextFh := s.nextFh + 1 }

def release (s : FileService) (fh : Nat) : FileService := { s with opened := Function.update s.opened fh none }

/-- The replies to a request that changes no file, each with what is served after it. -/
inductive Answers (req : FuseCaller) (s : FileService) : FuseQuery → QueryReply → FileService → Prop where
  | lookup {parent : InodeId} {name : OsStr} :
      Answers req s (.lookup parent name) (s.tree.lookup parent name.toStr) s
  | getattr {i : InodeId} : Answers req s (.getattr i) (s.tree.getattr i) s
  | readdir {full : List DirEntry → DirEntry → Bool} {i : InodeId} {offset : Nat}
      {listing : List (String × InodeId)} (hdir : s.tree.IsDir i) (hlists : s.tree.Lists i listing) :
      Answers req s (.readdir full i offset)
        (.dirents (FileTree.fill full ((listing.zipIdx.drop offset).map s.tree.dirent) [])) s
  | readdirFile {full : List DirEntry → DirEntry → Bool} {i : InodeId} {offset : Nat} (hfile : ¬ s.tree.IsDir i) :
      Answers req s (.readdir full i offset) (.error .ENOTDIR) s
  | openFile {i : InodeId} (hlive : s.tree.node i ≠ none) :
      Answers req s (.openFile i) (.opened s.nextFh) (s.openFile i)
  | openMissing {i : InodeId} (hnone : s.tree.node i = none) : Answers req s (.openFile i) (.error .ENOENT) s
  | read {i : InodeId} {offset : Int} {size : Nat} :
      Answers req s (.read i offset size) (s.tree.read i offset.toNat size) s
  | release {fh : Nat} : Answers req s (.release fh) .ok (s.release fh)
  | opendir {i : InodeId} (hdir : s.tree.IsDir i) : Answers req s (.opendir i) (.opened 0) s
  | opendirFile {i : InodeId} (hfile : ¬ s.tree.IsDir i) : Answers req s (.opendir i) (.error .ENOTDIR) s
  | releasedir : Answers req s .releasedir .ok s
  | readlink {i : InodeId} : Answers req s (.readlink i) (s.tree.readlink i) s
  | statfs : Answers req s .statfs s.tree.statfs s
  | access {i : InodeId} {mask : Int32} : Answers req s (.access i mask) (s.tree.access req i mask) s
  | flush : Answers req s .flush .ok s
  | getxattr {i : InodeId} {name : OsStr} {size : Nat} :
      Answers req s (.getxattr i name size) (.xattr (s.tree.getxattr i name.toStr size)) s
  | listxattr {i : InodeId} {size : Nat} {v : FileNode} {names : List (XAttrNamespace × String)}
      (hv : s.tree.node i = some v) (hnodup : names.Nodup) (hnames : ∀ key, key ∈ names ↔ v.xattr key ≠ none) :
      Answers req s (.listxattr i size) (.xattr (Fuse.replyBytes size (Fuse.xattrBuffer names))) s
  | listxattrMissing {i : InodeId} {size : Nat} (hnone : s.tree.node i = none) :
      Answers req s (.listxattr i size) (.xattr (.error .ENOENT)) s

/-- The replies to a request; fsync is nothing to the files. -/
inductive Replies (req : FuseCaller) (s : FileService) : KernelRequest → KernelReply → FileService → Prop where
  | change {now : Nat → Nat → Timestamp} {request : FuseRequest} :
      Replies req s (.change now request) (.changed (s.serve now req request).1) (s.serve now req request).2
  | ask {query : FuseQuery} {reply : QueryReply} {s' : FileService} (hanswer : s.Answers req query reply s') :
      Replies req s (.ask query) (.answered reply) s'
  | fsync {sidecar : Bool} : Replies req s (.fsync sidecar) (.changed .ok) s

end FileService

/-- A request that makes a file longer than a byte vector can be. -/
def KernelRequest.Outgrows (t : FileTree) : KernelRequest → Prop
  | .change _ request => request.Outgrows t
  | _ => False

end SotFs
