/-
Module: SotFs.Spec.FileTree
Layer: Spec
Purpose: The filesystem that a mount is meant to show: directories as maps from names to inode numbers, and for
  each inode number a node with its attributes, its bytes, the target of a symlink and its extended attributes.
  `serve` gives the one reply that each changing request gets from such a tree and the tree after it. There are
  no edges, directory ids, indexes, logs, capabilities or quotas here; nothing is translated from the source but
  the error numbers and the fields of an inode.
Trusted boundary: human-reviewed specification
Main exports: FileNode, FileTree, FileTree.Inside, FileTree.serve, FuseRequest.Outgrows
-/
import SotFs.Foundation.Buffers
import SotFs.Core.Fuse
import SotFs.Proofs.SetattrErrors
import SotFs.Proofs.Shape

namespace SotFs

open Std Foundation Relation

/-- What stands behind an inode number. -/
structure FileNode where
  inode : Inode
  content : List UInt8
  target : Option SymlinkTarget
  xattr : XAttrNamespace × String → Option (List UInt8)

/-- The node that a creation makes: no bytes, no attributes. -/
def FileNode.made (inode : Inode) (target : Option SymlinkTarget) : FileNode := ⟨inode, [], target, fun _ => none⟩

/-- The files: `entry (i, n)` is where the name `n` leads in the directory `i`, "." and ".." included; `next` is
    the number of the next node to be made. -/
@[ext] structure FileTree where
  entry : InodeId × String → Option InodeId
  node : InodeId → Option FileNode
  next : InodeId

namespace FileTree

variable (t : FileTree)

/-! ### What can be asked of a tree -/

def IsDir (i : InodeId) : Prop := ∃ v, t.node i = some v ∧ v.inode.vtype = .directory

/-- The directory has no entries but "." and "..". -/
def IsEmpty (i : InodeId) : Prop := ∀ n j, t.entry (i, n) = some j → ¬ UserName n

/-- A new inode can be entered under the name. -/
def CanMake (i : InodeId) (n : String) : Prop := invalidName n = false ∧ t.entry (i, n) = none

/-- The directory `c` has a name in `p`. -/
def Holds (p c : InodeId) : Prop := t.IsDir c ∧ ∃ n, UserName n ∧ t.entry (p, n) = some c

/-- `c` is `d` or lies below it. -/
def Inside (d c : InodeId) : Prop := ReflTransGen t.Holds d c

/-! ### Changes of a tree -/

def setEntry (key : InodeId × String) (i : Option InodeId) : FileTree :=
  { t with entry := Function.update t.entry key i }

def setNode (i : InodeId) (v : Option FileNode) : FileTree := { t with node := Function.update t.node i v }

/-- Enter a new node. -/
def make (parent : InodeId) (name : String) (v : FileNode) : FileTree where
  entry := Function.update t.entry (parent, name) (some t.next)
  node := Function.update t.node t.next (some v)
  next := t.next + 1

/-- Enter a new directory: it leads to itself and to its parent. -/
def makeDir (parent : InodeId) (name : String) (v : FileNode) : FileTree :=
  ((t.make parent name v).setEntry (t.next, ".") (some t.next)).setEntry (t.next, "..") (some parent)

/-- One more name of a node. -/
def addName (parent : InodeId) (name : String) (i : InodeId) (v : FileNode) : FileTree :=
  (t.setEntry (parent, name) (some i)).setNode i
    (some { v with inode := { v.inode with linkCount := v.inode.linkCount + 1 } })

/-- One name less of a file; the last one takes the node with it. -/
def dropName (parent : InodeId) (name : String) (i : InodeId) (v : FileNode) : FileTree :=
  (t.setEntry (parent, name) none).setNode i
    (if v.inode.linkCount ≤ 1 then none
     else some { v with inode := { v.inode with linkCount := v.inode.linkCount - 1 } })

/-- Take an empty directory with its name. -/
def dropDir (parent : InodeId) (name : String) (i : InodeId) : FileTree :=
  { t.setNode i none with
    entry := fun k => if k = (parent, name) ∨ k.1 = i then none else t.entry k }

open Classical in
/-- Take what a name leads to, if anything. -/
noncomputable def clear (parent : InodeId) (name : String) : FileTree :=
  match t.entry (parent, name) with
  | none => t
  | some i =>
      match t.node i with
      | none => t
      | some v => if v.inode.vtype = .directory then t.dropDir parent name i else t.dropName parent name i v

open Classical in
/-- Give what a name leads to another name; the ".." of a directory follows it. -/
noncomputable def move (parent : InodeId) (name : String) (newparent : InodeId) (newname : String) (i : InodeId) :
    FileTree :=
  let moved := (t.setEntry (parent, name) none).setEntry (newparent, newname) (some i)
  if parent ≠ newparent ∧ t.IsDir i then moved.setEntry (i, "..") (some newparent) else moved

/-- New bytes of a file: its size is their number. -/
def store (now : Timestamp) (i : InodeId) (v : FileNode) (bytes : List UInt8) : FileTree :=
  t.setNode i (some { v with content := bytes, inode := { v.inode with size := bytes.length, mtime := now } })

/-! ### Requests -/

/-- Mode and owner are set and then, if it is asked for, the size. -/
def setattr (now : Nat → Nat → Timestamp) (i : InodeId) (mode uid gid : Option UInt32) (size : Option Nat) :
    FuseReply × FileTree :=
  match t.node i with
  | none => (.error .ENOENT, t)
  | some v =>
      let v := { v with inode := v.inode.owned mode uid gid }
      let t := t.setNode i (some v)
      match size with
      | none => (.attr (inodeToAttr v.inode), t)
      | some size =>
          if v.inode.vtype ≠ .regular then (.error .ENOENT, t)
          else
            (.attr (inodeToAttr { v.inode with size := size, mtime := now 2 0 }),
              t.store (now 2 0) i v (Buffer.resize 0 v.content size))

open Classical in
noncomputable def mkdir (now : Nat → Nat → Timestamp) (req : FuseCaller) (parent : InodeId) (name : String)
    (mode : UInt32) : FuseReply × FileTree :=
  if ¬ t.IsDir parent then (.error .ENOTDIR, t)
  else if ¬ t.CanMake parent name then (.error .EEXIST, t)
  else
    let inode := { Inode.newDir (now 0 0) t.next (Fuse.permsOf mode) req.uid req.gid with linkCount := 2 }
    (.entry (inodeToAttr inode), t.makeDir parent name (.made inode none))

open Classical in
noncomputable def rmdir (parent : InodeId) (name : String) : FuseReply × FileTree :=
  if ¬ t.IsDir parent then (.error .ENOTDIR, t)
  else if ¬ UserName name then (.error .ENOENT, t)
  else
    match t.entry (parent, name) with
    | none => (.error .ENOENT, t)
    | some i =>
        if ¬ t.IsDir i then (.error Errno.EIO, t)
        else if ¬ t.IsEmpty i then (.error .ENOTEMPTY, t)
        else (.ok, t.clear parent name)

open Classical in
/-- `fh` is the next file handle. -/
noncomputable def create (now : Nat → Nat → Timestamp) (req : FuseCaller) (fh : Nat) (parent : InodeId)
    (name : String) (mode : UInt32) : FuseReply × FileTree :=
  if ¬ t.IsDir parent then (.error .ENOTDIR, t)
  else if ¬ t.CanMake parent name then (.error .EEXIST, t)
  else
    let inode := { Inode.newFile (now 0 0) t.next (Fuse.permsOf mode) req.uid req.gid with linkCount := 1 }
    (.created (inodeToAttr inode) fh, t.make parent name (.made inode none))

open Classical in
noncomputable def unlink (parent : InodeId) (name : String) : FuseReply × FileTree :=
  if ¬ t.IsDir parent then (.error .ENOTDIR, t)
  else if ¬ UserName name then (.error .ENOENT, t)
  else
    match t.entry (parent, name) with
    | none => (.error .ENOENT, t)
    | some i => if t.IsDir i then (.error Errno.EIO, t) else (.ok, t.clear parent name)

open Classical in
noncomputable def rename (parent : InodeId) (name : String) (newparent : InodeId) (newname : String) :
    FuseReply × FileTree :=
  if ¬ t.IsDir parent ∨ ¬ t.IsDir newparent then (.error .ENOTDIR, t)
  else if ¬ UserName name ∨ ¬ UserName newname then (.error .ENOENT, t)
  else
    match t.entry (parent, name) with
    | none => (.error .ENOENT, t)
    | some i =>
        if parent = newparent ∧ name = newname then (.ok, t)
        else if parent ≠ newparent ∧ t.IsDir i ∧ t.Inside i newparent then (.error .EINVAL, t)
        else if ∃ j, t.entry (newparent, newname) = some j ∧ t.IsDir j ∧ ¬ t.IsEmpty j then
          (.error Errno.EIO, t)
        else
          (.ok, (t.clear newparent newname).move parent name newparent newname i)

open Classical in
noncomputable def link (i newparent : InodeId) (newname : String) : FuseReply × FileTree :=
  if ¬ t.IsDir newparent then (.error .ENOTDIR, t)
  else if ¬ UserName newname then (.error Errno.EIO, t)
  else if t.entry (newparent, newname) ≠ none then (.error .EEXIST, t)
  else
    match t.node i with
    | none => (.error Errno.EIO, t)
    | some v =>
        if v.inode.vtype = .directory then (.error .EPERM, t)
        else if LINK_MAX ≤ v.inode.linkCount then (.error Errno.EIO, t)
        else
          (.entry (inodeToAttr { v.inode with linkCount := v.inode.linkCount + 1 }),
            t.addName newparent newname i v)

def write (now : Nat → Nat → Timestamp) (i : InodeId) (offset : Nat) (data : List UInt8) :
    FuseReply × FileTree :=
  match t.node i with
  | none => (.error Errno.EIO, t)
  | some v =>
      if v.inode.vtype ≠ .regular then (.error Errno.EIO, t)
      else
        (.written (data.length % 2 ^ 32),
          t.store (now 0 0) i v (Buffer.overwrite 0 v.content offset data))

open Classical in
noncomputable def symlink (now : Nat → Nat → Timestamp) (req : FuseCaller) (parent : InodeId)
    (name target : String) : FuseReply × FileTree :=
  if ¬ t.IsDir parent then (.error .ENOTDIR, t)
  else if invalidName name = true then (.error Errno.EIO, t)
  else if t.entry (parent, name) ≠ none then (.error .EEXIST, t)
  else
    let inode : Inode :=
      { id := t.next, vtype := .symlink, permissions := ⟨0o777⟩, uid := req.uid, gid := req.gid,
        size := target.utf8ByteSize, linkCount := 1, ctime := now 0 0, mtime := now 0 0,
        atime := now 0 0 }
    (.entry (inodeToAttr inode), t.make parent name (.made inode (some ⟨target⟩)))

def setxattr (i : InodeId) (name : String) (value : List UInt8) : FuseReply × FileTree :=
  match Fuse.splitXattr name with
  | none => (.error .ENOTSUP, t)
  | some key =>
      match t.node i with
      | none => (.error .ENOENT, t)
      | some v =>
          if 65536 < value.length then (.error Errno.EIO, t)
          else (.ok, t.setNode i (some { v with xattr := Function.update v.xattr key (some value) }))

def removexattr (i : InodeId) (name : String) : FuseReply × FileTree :=
  match Fuse.splitXattr name with
  | none => (.error .ENOTSUP, t)
  | some key =>
      match t.node i with
      | none => (.error .ENOENT, t)
      | some v =>
          if v.xattr key = none then (.error .ENODATA, t)
          else (.ok, t.setNode i (some { v with xattr := Function.update v.xattr key none }))

/-- The reply to a changing request and the tree after it. A failed request changes nothing, but for a size that
    is asked for on what is no file: by then mode and owner are set. -/
noncomputable def serve (now : Nat → Nat → Timestamp) (req : FuseCaller) (fh : Nat) :
    FuseRequest → FuseReply × FileTree
  | .setattr i mode uid gid size => t.setattr now i mode uid gid size
  | .mkdir parent name mode => t.mkdir now req parent name.toStr mode
  | .rmdir parent name => t.rmdir parent name.toStr
  | .create parent name mode => t.create now req fh parent name.toStr mode
  | .unlink parent name => t.unlink parent name.toStr
  | .rename parent name newparent newname => t.rename parent name.toStr newparent newname.toStr
  | .link i newparent newname => t.link i newparent newname.toStr
  | .write i offset data => t.write now i offset.toNat data
  | .symlink parent name target => t.symlink now req parent name.toStr target.toStr
  | .setxattr i name value => t.setxattr i name.toStr value
  | .removexattr i name => t.removexattr i name.toStr

/-- The tree of an empty filesystem. -/
def new (now : Timestamp) : FileTree where
  entry := Function.update (fun _ => none) (1, ".") (some 1)
  node := Function.update (fun _ => none) 1
    (some (.made { Inode.newDir now 1 .dirDefault 0 0 with linkCount := 1 } none))
  next := 2

end FileTree

/-- A request that makes a file longer than a byte vector can be. -/
def FuseRequest.Outgrows (t : FileTree) : FuseRequest → Prop
  | .write i offset data =>
      (∃ v, t.node i = some v ∧ v.inode.vtype = .regular) ∧ isizeMax < offset.toNat + data.length
  | .setattr i _ _ _ (some size) => (∃ v, t.node i = some v ∧ v.inode.vtype = .regular) ∧ isizeMax < size
  | _ => False

end SotFs
