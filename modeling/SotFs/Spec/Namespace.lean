/-
Module: SotFs.Spec.Namespace
Layer: Spec
Purpose: What the metadata graph is for: a finite map from directories and names to inodes, and for each
  inode its attributes, content and extended attributes. `Step` says what each of the six calls that make
  and take names does to such a map; nothing here is translated from the source.
Trusted boundary: human-reviewed specification
Main exports: InodeView, Namespace, Namespace.entriesAfter, Namespace.Step
-/
import SotFs.Core.Runs
import SotFs.Proofs.Shape

namespace SotFs

/-- What is to be known of an inode. -/
structure InodeView where
  vtype : VnodeType
  permissions : Permissions
  uid : UInt32
  gid : UInt32
  size : Nat
  content : Option (List UInt8)
  symlink : Option SymlinkTarget
  xattrs : List XAttr
deriving DecidableEq, Repr

/-- Where the names lead, and what is to be known of the inodes. -/
structure Namespace where
  entry : DirId × String → Option InodeId
  inode : InodeId → Option InodeView

namespace Namespace

/-- Two ids of one inode: the arenas only look at the low 32 bits. -/
def SameInode (t t' : InodeId) : Prop := idToArena t = idToArena t'

/-- Some name other than "." and ".." leads to the inode. -/
def Named (ns : Namespace) (t : InodeId) : Prop :=
  ∃ d n t', UserName n ∧ ns.entry (d, n) = some t' ∧ SameInode t' t

/-- The entries after a successful call: the named one is made or taken, mkdir makes and rmdir takes the two
    entries of the directory itself. The directory that rmdir removes is the one whose "." leads where the
    name leads. -/
def entriesAfter (entry : DirId × String → Option InodeId) :
    Op → Reply → DirId × String → Option InodeId
  | .createFile d n .., .inode i | .symlink d n .., .inode i => Function.update entry (d, n) (some i)
  | .mkdir d n .., .created ⟨i, some c⟩ =>
      Function.update (Function.update (Function.update entry (d, n) (some i)) (c, ".") (some i)) (c, "..")
        (entry (d, "."))
  | .link d n t, .done => Function.update entry (d, n) (some t)
  | .unlink d n, .done => Function.update entry (d, n) none
  | .rmdir d n, .done => fun k =>
      if k = (d, n) ∨ (entry (k.1, ".") = entry (d, n) ∧ ¬ UserName k.2) then none else entry k
  | _, _ => entry

/-- What the call needs of its name: free to be made, there to be taken. -/
def NameReady (ns : Namespace) : Op → Prop
  | .createFile d n .. | .symlink d n .. | .mkdir d n .. | .link d n _ => ns.entry (d, n) = none
  | .unlink d n | .rmdir d n => ∃ t, ns.entry (d, n) = some t
  | _ => True

end Namespace

/-- The calls that make or take one name. -/
def Op.MakesOrTakesName : Op → Prop
  | .createFile .. | .mkdir .. | .symlink .. | .link .. | .unlink .. | .rmdir .. => True
  | _ => False

/-- A successful call of the namespace: the named entry changes and no other, an inode lives from the call
    that returns it to the one that takes its last name, and what is known of it stays as it is. -/
structure Namespace.Step (ns : Namespace) (op : Op) (r : Reply) (ns' : Namespace) : Prop where
  ready : ns.NameReady op
  entries : ns'.entry = entriesAfter ns.entry op r
  fresh : ∀ {i}, r.newInode = some i → ns.inode i = none
  born : ∀ {t}, ns.inode t = none → (ns'.inode t ≠ none ↔ ∃ i, r.newInode = some i ∧ SameInode i t)
  freed : ∀ {t}, ns.inode t ≠ none → (ns'.inode t = none ↔ ns.Named t ∧ ¬ ns'.Named t)
  kept : ∀ {t v}, ns.inode t = some v → ns'.inode t ≠ none → ns'.inode t = some v

end SotFs
