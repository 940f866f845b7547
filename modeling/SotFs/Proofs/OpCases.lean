/-
Module: SotFs.Proofs.OpCases
Layer: Proofs
Purpose: What each operation can do, once and for all: it fails and leaves the graph as it is, or its
  guards hold and it performs one edit. No invariant is assumed. Rename is left to the module that
  composes it from these.
Trusted boundary: none
Main exports: Outcome.Failed, TypeGraph.settle, TypeGraph.checked, createFile_eq_checked, createFile_cases,
  mkdir_cases, rmdir_cases, link_cases, unlink_cases, symlink_cases, writeBlock_cases, writeData_cases,
  truncate_cases, chmod_cases, chown_cases, setxattr_cases, removexattr_cases, setacl_cases, setQuota_cases
-/
import SotFs.Proofs.SideEdits
import SotFs.Proofs.MoveEdits

namespace SotFs

open Std (ExtTreeMap ExtTreeSet)
open Foundation

/-- The call did not succeed. -/
def Outcome.Failed {α : Type} (o : Outcome α) : Prop := ∀ a, o ≠ .ok a

theorem Outcome.failed_err {α : Type} (e : GraphError) : (Outcome.err e : Outcome α).Failed := by
  intro a h
  cases h

theorem Outcome.failed_panic {α : Type} : (Outcome.panic : Outcome α).Failed := by
  intro a h
  cases h

theorem Outcome.failed_diverges {α : Type} : (Outcome.diverges : Outcome α).Failed := by
  intro a h
  cases h

/-- A failed outcome stays one under another kind of reply. -/
theorem Outcome.map_ne_ok {α β : Type} {o : Outcome α} (hfail : o.Failed) (f : α → β) (b : β) :
    o.map f ≠ .ok b := by
  cases o with
  | ok a => exact absurd rfl (hfail a)
  | err e => exact Outcome.failed_err e b
  | panic => exact Outcome.failed_panic b
  | diverges => exact Outcome.failed_diverges b

/-- Charge the directories from `d` upwards and log: how an operation that adds or frees an inode ends. -/
def TypeGraph.settle {α : Type} (g : TypeGraph) (d : DirId) (deltaInodes : Int) (now : Timestamp)
    (op : ProvOp) (inodeId : InodeId) (detail : String) (value : α) : Outcome α × TypeGraph :=
  match g.updateQuota d deltaInodes 0 with
  | none => (.diverges, g)
  | some g => (.ok value, g.recordProv now op inodeId detail)

/-- Settling may run on, but it returns no error. -/
theorem settle_ne_err {α : Type} {g : TypeGraph} {d : DirId} {deltaInodes : Int} {ts : Timestamp} {op : ProvOp}
    {t : InodeId} {detail : String} {value : α} (e : GraphError) :
    (g.settle d deltaInodes ts op t detail value).1 ≠ .err e := by
  unfold TypeGraph.settle
  cases g.updateQuota d deltaInodes 0 with
  | none => rintro ⟨⟩
  | some _ => rintro ⟨⟩

/-- The checks before an inode is made, and what is done when they pass. -/
def TypeGraph.checked {α : Type} (g : TypeGraph) (d : DirId) (n : String) (made : Outcome α × TypeGraph) :
    Outcome α × TypeGraph :=
  match g.requireCap Rights.write with
  | .error e => (.err e, g)
  | .ok () =>
  if invalidName n then (.err (.nameNotFound n), g)
  else if (g.resolveName d n).isSome then (.err (.nameExists d n), g)
  else if !g.containsDir d then (.err (.dirNotFound d), g)
  else
    match g.checkQuotaInode d with
    | .err e => (.err e, g)
    | .panic => (.panic, g)
    | .diverges => (.diverges, g)
    | .ok () => made

/-- The checks that create_file, mkdir and symlink share all pass. -/
def TypeGraph.ChecksPass (g : TypeGraph) (d : DirId) (n : String) : Prop :=
  g.requireCap Rights.write = .ok () ∧ invalidName n = false ∧ g.resolveName d n = none ∧
    g.containsDir d = true ∧ g.checkQuotaInode d = .ok ()

/-- A check that fails is all there is. -/
theorem TypeGraph.checked_cases {α : Type} (g : TypeGraph) (d : DirId) (n : String)
    (made : Outcome α × TypeGraph) :
    (∃ o, o.Failed ∧ g.checked d n made = (o, g)) ∨ (g.ChecksPass d n ∧ g.checked d n made = made) := by
  unfold TypeGraph.checked TypeGraph.ChecksPass
  cases hcap : g.requireCap Rights.write with
  | error e => exact .inl ⟨_, Outcome.failed_err _, rfl⟩
  | ok _ =>
      cases hname : invalidName n with
      | true => exact .inl ⟨_, Outcome.failed_err _, rfl⟩
      | false =>
          cases hres : g.resolveName d n with
          | some t => exact .inl ⟨_, Outcome.failed_err _, rfl⟩
          | none =>
              cases hdir : g.containsDir d with
              | false => exact .inl ⟨_, Outcome.failed_err _, rfl⟩
              | true =>
                  cases hquota : g.checkQuotaInode d with
                  | err e => exact .inl ⟨_, Outcome.failed_err _, rfl⟩
                  | panic => exact .inl ⟨_, Outcome.failed_panic, rfl⟩
                  | diverges => exact .inl ⟨_, Outcome.failed_diverges, rfl⟩
                  | ok _ => exact .inr ⟨⟨rfl, rfl, rfl, rfl, rfl⟩, rfl⟩

theorem containsDir_eq_isSome {g : TypeGraph} (d : DirId) : g.containsDir d = (g.getDir d).isSome := by
  rw [TypeGraph.containsDir, Arena.contains_eq_isSome, TypeGraph.getDir, Arena.get_eq_data]

section Namespace

variable (now : Nat → Timestamp) (d : DirId) (n : String)

/-- The inode record that create makes. -/
def createdInode (now : Nat → Timestamp) (g : TypeGraph) (u gr : UInt32) (p : Permissions) : Inode :=
  { Inode.newFile (now 0) g.nextInode p u gr with linkCount := 1 }

theorem createFile_eq_checked {now : Nat → Timestamp} {d : DirId} {n : String} {g : TypeGraph} {u gr : UInt32}
    {p : Permissions} : createFile now d n u gr p g = g.checked d n
      ((g.enterInode (createdInode now g u gr p) d n).settle d 1 (now 1) .create g.nextInode n
        g.nextInode) := rfl

theorem createFile_cases (u gr : UInt32) (p : Permissions) (g : TypeGraph) :
    (∃ o, o.Failed ∧ createFile now d n u gr p g = (o, g)) ∨
    (g.requireCap Rights.write = .ok () ∧ invalidName n = false ∧ g.resolveName d n = none ∧
      g.containsDir d = true ∧ g.checkQuotaInode d = .ok () ∧
      createFile now d n u gr p g =
        (g.enterInode (createdInode now g u gr p) d n).settle d 1 (now 1) .create g.nextInode n
          g.nextInode) := by
  rw [createFile_eq_checked]
  rcases g.checked_cases d n _ with hfail | ⟨⟨hcap, hname, hfree, hdir, hquota⟩, heq⟩
  · exact .inl hfail
  · exact .inr ⟨hcap, hname, hfree, hdir, hquota, heq⟩

/-- The inode record that mkdir makes. -/
def madeDirInode (now : Nat → Timestamp) (g : TypeGraph) (u gr : UInt32) (p : Permissions) : Inode :=
  { Inode.newDir (now 0) g.nextInode p u gr with linkCount := 2 }

theorem mkdir_eq_checked {now : Nat → Timestamp} {d : DirId} {n : String} {g : TypeGraph} {u gr : UInt32}
    {p : Permissions} : mkdir now d n u gr p g = g.checked d n
      ((g.enterDir (madeDirInode now g u gr p) d (((g.getDir d).map Directory.inodeId).getD 0) n).settle d 1
        (now 1) .mkdir g.nextInode n ⟨g.nextInode, some g.nextDir⟩) := by
  unfold mkdir TypeGraph.checked
  rw [containsDir_eq_isSome]
  cases g.getDir d <;> rfl

theorem mkdir_cases (u gr : UInt32) (p : Permissions) (g : TypeGraph) :
    (∃ o, o.Failed ∧ mkdir now d n u gr p g = (o, g)) ∨
    (g.requireCap Rights.write = .ok () ∧ invalidName n = false ∧ g.resolveName d n = none ∧
      g.checkQuotaInode d = .ok () ∧ ∃ parent, g.getDir d = some parent ∧
      mkdir now d n u gr p g =
        (g.enterDir (madeDirInode now g u gr p) d parent.inodeId n).settle d 1 (now 1) .mkdir
          g.nextInode n ⟨g.nextInode, some g.nextDir⟩) := by
  rw [mkdir_eq_checked]
  rcases g.checked_cases d n _ with hfail | ⟨⟨hcap, hname, hfree, hdir, hquota⟩, heq⟩
  · exact .inl hfail
  · obtain ⟨parent, hparent⟩ := Option.isSome_iff_exists.mp ((containsDir_eq_isSome d).symm.trans hdir)
    refine .inr ⟨hcap, hname, hfree, hquota, parent, hparent, heq.trans ?_⟩
    rw [hparent]
    rfl

theorem rmdir_cases (g : TypeGraph) :
    (∃ o, o.Failed ∧ rmdir now d n g = (o, g)) ∨
    (g.requireCap Rights.write = .ok () ∧ UserName n ∧ ∃ ti td inode,
      g.resolveName d n = some ti ∧ g.getInode ti = some inode ∧ inode.vtype = .directory ∧
      g.dirForInode ti = some td ∧ g.dirNotEmpty td = false ∧
      rmdir now d n g = (g.dropDir d n ti td).settle d (-1) (now 0) .rmdir ti n ()) := by
  unfold rmdir
  split
  · exact .inl ⟨_, Outcome.failed_err _, rfl⟩
  · rename_i hcap
    split
    · exact .inl ⟨_, Outcome.failed_err _, rfl⟩
    · rename_i hname
      split
      · exact .inl ⟨_, Outcome.failed_err _, rfl⟩
      · rename_i ti hti
        split
        · exact .inl ⟨_, Outcome.failed_err _, rfl⟩
        · rename_i inode hinode
          split
          · exact .inl ⟨_, Outcome.failed_err _, rfl⟩
          · rename_i hkind
            split
            · exact .inl ⟨_, Outcome.failed_err _, rfl⟩
            · rename_i td htd
              split
              · exact .inl ⟨_, Outcome.failed_err _, rfl⟩
              · rename_i hempty
                exact .inr ⟨hcap, not_or.mp hname, ti, td, inode, hti, hinode,
                  not_not.mp hkind, htd, by simpa using hempty, rfl⟩

theorem link_cases (t : InodeId) (g : TypeGraph) :
    (∃ o, o.Failed ∧ link now d n t g = (o, g)) ∨
    (g.requireCap Rights.write = .ok () ∧ UserName n ∧ g.resolveName d n = none ∧ ∃ inode,
      g.getInode t = some inode ∧ inode.vtype ≠ .directory ∧ inode.linkCount < LINK_MAX ∧
      link now d n t g = (.ok (), (g.enterLink d t n).recordProv (now 0) .link t n)) := by
  unfold link
  split
  · exact .inl ⟨_, Outcome.failed_err _, rfl⟩
  · rename_i hcap
    split
    · exact .inl ⟨_, Outcome.failed_err _, rfl⟩
    · rename_i hname
      split
      · exact .inl ⟨_, Outcome.failed_err _, rfl⟩
      · rename_i hfree
        split
        · exact .inl ⟨_, Outcome.failed_err _, rfl⟩
        · rename_i inode hinode
          split
          · exact .inl ⟨_, Outcome.failed_err _, rfl⟩
          · rename_i hkind
            split
            · exact .inl ⟨_, Outcome.failed_err _, rfl⟩
            · rename_i hmax
              exact .inr ⟨hcap, not_or.mp hname, by simpa using hfree, inode, hinode, hkind,
                not_le.mp hmax, rfl⟩

theorem unlink_cases (g : TypeGraph) :
    (∃ o, o.Failed ∧ unlink now d n g = (o, g)) ∨
    (g.requireCap Rights.write = .ok () ∧ UserName n ∧ d ∈ g.dirContains ∧ ∃ e t m inode,
      ((g.dirEntries d).find? fun entry => entry.2.2 = n) = some (e, t, m) ∧
      g.getInode t = some inode ∧ inode.vtype ≠ .directory ∧
      ((decrement32 inode.linkCount ≠ 0 ∧
          unlink now d n g = (.ok (), (g.dropName e d t).recordProv (now 0) .unlink t n)) ∨
        (decrement32 inode.linkCount = 0 ∧
          unlink now d n g = (g.dropLastName e d t).settle d (-1) (now 0) .unlink t n ()))) := by
  unfold unlink
  split
  · exact .inl ⟨_, Outcome.failed_err _, rfl⟩
  · rename_i hcap
    split
    · exact .inl ⟨_, Outcome.failed_err _, rfl⟩
    · rename_i hname
      split
      · exact .inl ⟨_, Outcome.failed_err _, rfl⟩
      · rename_i hdir
        split
        · exact .inl ⟨_, Outcome.failed_err _, rfl⟩
        · rename_i e t m hfind
          split
          · exact .inl ⟨_, Outcome.failed_err _, rfl⟩
          · rename_i inode hinode
            split
            · exact .inl ⟨_, Outcome.failed_err _, rfl⟩
            · rename_i hkind
              refine .inr ⟨hcap, not_or.mp hname, not_not.mp hdir, e, t, m, inode, hfind, hinode, hkind, ?_⟩
              by_cases hlast : decrement32 inode.linkCount = 0
              · exact .inr ⟨hlast, by rw [if_pos hlast]; rfl⟩
              · exact .inl ⟨hlast, by rw [if_neg hlast]; rfl⟩

/-- The inode record that symlink makes. -/
def symlinkInode (now : Nat → Timestamp) (g : TypeGraph) (target : String) (u gr : UInt32) : Inode where
  id := g.nextInode
  vtype := .symlink
  permissions := ⟨0o777⟩
  uid := u
  gid := gr
  size := target.utf8ByteSize
  linkCount := 1
  ctime := now 0
  mtime := now 0
  atime := now 0

/-- The graph that symlink leaves, before quotas and log. -/
def TypeGraph.enterSymlink (g : TypeGraph) (inode : Inode) (d : DirId) (n target : String) : TypeGraph :=
  { g.enterInode inode d n with
    symlinkTargets := g.symlinkTargets.insert g.nextInode ⟨target⟩ }

theorem symlink_eq_checked {now : Nat → Timestamp} {d : DirId} {n : String} {g : TypeGraph} {target : String}
    {u gr : UInt32} : symlink now d n target u gr g = g.checked d n
      ((g.enterSymlink (symlinkInode now g target u gr) d n target).settle d 1 (now 1) .symlink g.nextInode n
        g.nextInode) := rfl

theorem symlink_cases (target : String) (u gr : UInt32) (g : TypeGraph) :
    (∃ o, o.Failed ∧ symlink now d n target u gr g = (o, g)) ∨
    (g.requireCap Rights.write = .ok () ∧ invalidName n = false ∧ g.resolveName d n = none ∧
      g.containsDir d = true ∧ g.checkQuotaInode d = .ok () ∧
      symlink now d n target u gr g =
        (g.enterSymlink (symlinkInode now g target u gr) d n target).settle d 1 (now 1) .symlink
          g.nextInode n g.nextInode) := by
  rw [symlink_eq_checked]
  rcases g.checked_cases d n _ with hfail | ⟨⟨hcap, hname, hfree, hdir, hquota⟩, heq⟩
  · exact .inl hfail
  · exact .inr ⟨hcap, hname, hfree, hdir, hquota, heq⟩

end Namespace

section Content

variable (now : Nat → Timestamp) (t : InodeId)

theorem writeBlock_cases (offset sectorStart sectorCount : Nat) (g : TypeGraph) :
    (∃ o, o.Failed ∧ writeBlock t offset sectorStart sectorCount g = (o, g)) ∨
    (g.requireCap Rights.write = .ok () ∧ g.containsInode t = true ∧
      writeBlock t offset sectorStart sectorCount g =
        (.ok g.nextBlock, g.attachBlock t offset sectorStart sectorCount)) := by
  unfold writeBlock
  split
  · exact .inl ⟨_, Outcome.failed_err _, rfl⟩
  · rename_i hcap
    split
    · exact .inl ⟨_, Outcome.failed_err _, rfl⟩
    · rename_i hlive
      exact .inr ⟨hcap, by simpa using hlive, rfl⟩

/-- write_data fails at once, panics after it may have made room, or writes. -/
theorem writeData_cases (offset : Nat) (data : List UInt8) (g : TypeGraph) :
    (∃ e, writeData now t offset data g = (.err e, g)) ∨
    ∃ inode, g.getInode t = some inode ∧ inode.vtype = .regular ∧
      ((∃ buf, writeData now t offset data g =
          (.panic, { g with fileData := g.fileData.insert t buf })) ∨
        ∃ buf, writeData now t offset data g =
          (.ok data.length,
            (({ g with fileData := g.fileData.insert t buf }).modifyInode t fun i =>
              { i with size := buf.length, mtime := now 0 }).recordProv (now 1) .write t "")) := by
  unfold writeData
  split
  · exact .inl ⟨_, rfl⟩
  · split
    · exact .inl ⟨_, rfl⟩
    · rename_i inode hinode
      split
      · exact .inl ⟨_, rfl⟩
      · rename_i hkind
        refine .inr ⟨inode, hinode, not_not.mp hkind, ?_⟩
        dsimp only
        split
        · exact .inl ⟨_, rfl⟩
        · split
          · exact .inl ⟨_, rfl⟩
          · exact .inr ⟨_, rfl⟩

/-- truncate fails at once, panics, or resizes. -/
theorem truncate_cases (newSize : Nat) (g : TypeGraph) :
    (∃ e, truncate now t newSize g = (.err e, g)) ∨
    ∃ inode, g.getInode t = some inode ∧ inode.vtype = .regular ∧
      ((∃ buf, truncate now t newSize g =
          (.panic, { g with fileData := g.fileData.insert t buf })) ∨
        truncate now t newSize g =
          (.ok (),
            (({ g with fileData := g.fileData.insert t (resizeBytes (g.fileData.getD t []) newSize) }
              ).modifyInode t fun i => { i with size := newSize, mtime := now 0 }).recordProv (now 1)
                .truncate t "")) := by
  unfold truncate
  split
  · exact .inl ⟨_, rfl⟩
  · split
    · exact .inl ⟨_, rfl⟩
    · rename_i inode hinode
      split
      · exact .inl ⟨_, rfl⟩
      · rename_i hkind
        refine .inr ⟨inode, hinode, not_not.mp hkind, ?_⟩
        dsimp only
        split
        · exact .inl ⟨_, rfl⟩
        · exact .inr rfl

theorem chmod_cases (mode : UInt16) (g : TypeGraph) :
    (∃ o, o.Failed ∧ chmod now t mode g = (o, g)) ∨
    (∃ inode, g.getInode t = some inode) ∧ chmod now t mode g =
      (.ok (), (g.modifyInode t fun i => { i with permissions := ⟨mode⟩ }).recordProv (now 0) .chmod t "") := by
  unfold chmod
  split
  · exact .inl ⟨_, Outcome.failed_err _, rfl⟩
  · split
    · exact .inl ⟨_, Outcome.failed_err _, rfl⟩
    · rename_i inode hinode
      exact .inr ⟨⟨inode, hinode⟩, rfl⟩

theorem chown_cases (u gr : Option UInt32) (g : TypeGraph) :
    (∃ o, o.Failed ∧ chown now t u gr g = (o, g)) ∨
    (∃ inode, g.getInode t = some inode) ∧ chown now t u gr g =
      (.ok (), (g.modifyInode t fun i => { i with uid := u.getD i.uid, gid := gr.getD i.gid }).recordProv
        (now 0) .chown t "") := by
  unfold chown
  split
  · exact .inl ⟨_, Outcome.failed_err _, rfl⟩
  · split
    · exact .inl ⟨_, Outcome.failed_err _, rfl⟩
    · rename_i inode hinode
      exact .inr ⟨⟨inode, hinode⟩, rfl⟩

theorem setxattr_cases (ns : XAttrNamespace) (name : String) (value : List UInt8) (g : TypeGraph) :
    (∃ o, o.Failed ∧ setxattr now t ns name value g = (o, g)) ∨
    (g.requireCap Rights.write = .ok () ∧ g.containsInode t = true ∧ value.length ≤ 65536 ∧
      ((∃ a, g.findXattr t ns name = some a ∧
          setxattr now t ns name value g =
            (.ok a, { g with xattrs := g.xattrs.modify a fun xa => { xa with value := value } })) ∨
        (g.findXattr t ns name = none ∧
          setxattr now t ns name value g =
            (.ok g.nextXattr,
              (g.attachXattr t ns name value).recordProv (now 0) .setxattr t name)))) := by
  unfold setxattr
  split
  · exact .inl ⟨_, Outcome.failed_err _, rfl⟩
  · rename_i hcap
    split
    · exact .inl ⟨_, Outcome.failed_err _, rfl⟩
    · rename_i hlive
      split
      · exact .inl ⟨_, Outcome.failed_err _, rfl⟩
      · rename_i hsize
        refine .inr ⟨hcap, by simpa using hlive, not_lt.mp hsize, ?_⟩
        split
        · rename_i a ha
          exact .inl ⟨a, ha, rfl⟩
        · rename_i hnone
          exact .inr ⟨hnone, rfl⟩

theorem removexattr_cases (ns : XAttrNamespace) (name : String) (g : TypeGraph) :
    (∃ o, o.Failed ∧ removexattr now t ns name g = (o, g)) ∨
    (g.requireCap Rights.write = .ok () ∧ g.containsInode t = true ∧ ∃ a,
      g.findXattr t ns name = some a ∧
      removexattr now t ns name g =
        (.ok (), (g.dropXattr t a).recordProv (now 0) .removexattr t name)) := by
  unfold removexattr
  split
  · exact .inl ⟨_, Outcome.failed_err _, rfl⟩
  · rename_i hcap
    split
    · exact .inl ⟨_, Outcome.failed_err _, rfl⟩
    · rename_i hlive
      split
      · exact .inl ⟨_, Outcome.failed_err _, rfl⟩
      · rename_i a ha
        exact .inr ⟨hcap, by simpa using hlive, a, ha, rfl⟩

/-- The mask of an ACL: the first mask entry. -/
def aclMask (entries : List AclEntry) : Option Rights :=
  (entries.find? fun e => e.tag = .mask).map fun e => permsToRights e.permissions

theorem setacl_cases (entries : List AclEntry) (g : TypeGraph) :
    (∃ o, o.Failed ∧ setacl now t entries g = (o, g)) ∨
    (g.requireCap Rights.grant = .ok () ∧ g.containsInode t = true ∧
      setacl now t entries g =
        (.ok (),
          (entries.foldl (TypeGraph.grantEntry t (aclMask entries))
            { g.dropGrants t with acls := (g.dropGrants t).acls.insert t entries }).recordProv (now 0)
              .setAcl t "")) := by
  unfold setacl
  split
  · exact .inl ⟨_, Outcome.failed_err _, rfl⟩
  · rename_i hcap
    split
    · exact .inl ⟨_, Outcome.failed_err _, rfl⟩
    · rename_i hlive
      exact .inr ⟨hcap, by simpa using hlive, rfl⟩

theorem setQuota_cases (d : DirId) (il bl : Nat) (g : TypeGraph) :
    (∃ o, o.Failed ∧ setQuota d il bl g = (o, g)) ∨
    (g.requireCap Rights.grant = .ok () ∧ g.containsDir d = true ∧
      setQuota d il bl g = (.ok (), { g with quotas := g.quotas.insert d (.new il bl) })) := by
  unfold setQuota
  split
  · exact .inl ⟨_, Outcome.failed_err _, rfl⟩
  · rename_i hcap
    split
    · exact .inl ⟨_, Outcome.failed_err _, rfl⟩
    · rename_i hdir
      exact .inr ⟨hcap, by simpa using hdir, rfl⟩

end Content

/-! ### Rename

Rename removes its destination, then renames an entry in place or moves it, then logs. What each of these
keeps is kept by the whole, on whatever graph. -/

/-- The search for an entry of a directory by its name and some target finds the edge. -/
def TypeGraph.Finds (g : TypeGraph) (d : DirId) (n : String) (e : EdgeId) : Prop :=
  ∃ t, g.findEntry d t n = some e

section Rename

variable {P Q : TypeGraph → Prop} {now : Nat → Timestamp} {g : TypeGraph}

theorem removeDestination_keeps (now : Nat → Timestamp) (d : DirId) (n : String) (t : Option InodeId) (h : P g)
    (hrmdir : P (rmdir now d n g).2) (hunlink : P (unlink now d n g).2) :
    P (g.removeDestination now d n t).2 := by
  unfold TypeGraph.removeDestination
  split
  · exact h
  · split
    · exact h
    · split
      · exact hrmdir
      · exact hunlink

/-- What holds with the destination removed turns into what holds after the entry has changed. -/
theorem renameSameDir_leads {d : DirId} {sn dn : String} (hleave : ∀ {g₁}, P g₁ → Q g₁) (h : P g)
    (hremoved : P (g.removeDestination now d dn (g.resolveName d dn)).2)
    (hrename : ∀ {g₁ e}, g₁.Finds d sn e → P g₁ → Q (g₁.renameContainsEdge e dn).2) :
    Q (renameSameDir now d sn dn g).2 := by
  unfold renameSameDir
  split
  · exact hleave h
  · split
    · exact hleave h
    · split
      · rename_i hremove
        rw [hremove] at hremoved
        split
        · exact hleave hremoved
        · split
          · exact hleave hremoved
          · exact hrename ⟨_, ‹_›⟩ hremoved
      · exact hleave hremoved

theorem renameCrossDir_leads {sd dd : DirId} {sn dn : String} (hleave : ∀ {g₁}, P g₁ → Q g₁) (h : P g)
    (hremoved : P (g.removeDestination now dd dn (g.resolveName dd dn)).2)
    (hmove : ∀ {g₁ e} s, g₁.Finds sd sn e → P g₁ → Q (g₁.moveEntry e sd s dd dn)) :
    Q (renameCrossDir now sd sn dd dn g).2 := by
  unfold renameCrossDir
  split
  · exact hleave h
  · split
    · exact hleave h
    · split
      · rename_i hremove
        rw [hremove] at hremoved
        split
        · exact hleave hremoved
        · split
          · exact hleave hremoved
          · exact hmove _ ⟨_, ‹_›⟩ hremoved
      · exact hleave hremoved

theorem rename_leads {sd dd : DirId} {sn dn : String} (hleave : ∀ {g₁}, P g₁ → Q g₁) (h : P g)
    (hremoved : P (g.removeDestination now dd dn (g.resolveName dd dn)).2)
    (hrename : ∀ {g₁ e}, g₁.Finds sd sn e → P g₁ → Q (g₁.renameContainsEdge e dn).2)
    (hmove : ∀ {g₁ e} s, g₁.Finds sd sn e → P g₁ → Q (g₁.moveEntry e sd s dd dn))
    (hlog : ∀ {g₁} t, Q g₁ → Q (g₁.recordProv (now 1) .rename t dn)) :
    Q (rename now sd sn dd dn g).2 := by
  unfold rename
  split
  · exact hleave h
  · split
    · exact hleave h
    · have hresult : Q (if sd = dd then renameSameDir now sd sn dn g
          else renameCrossDir now sd sn dd dn g).2 := by
        split
        · rename_i hdir
          subst hdir
          exact renameSameDir_leads hleave h hremoved hrename
        · exact renameCrossDir_leads hleave h hremoved hmove
      dsimp only
      split
      · rename_i heq
        rw [heq] at hresult
        exact hlog _ hresult
      · exact hresult

theorem rename_keeps {sd dd : DirId} {sn dn : String} (h : P g)
    (hremoved : P (g.removeDestination now dd dn (g.resolveName dd dn)).2)
    (hrename : ∀ {g₁ e}, g₁.Finds sd sn e → P g₁ → P (g₁.renameContainsEdge e dn).2)
    (hmove : ∀ {g₁ e} s, g₁.Finds sd sn e → P g₁ → P (g₁.moveEntry e sd s dd dn))
    (hlog : ∀ {g₁} t, P g₁ → P (g₁.recordProv (now 1) .rename t dn)) :
    P (rename now sd sn dd dn g).2 :=
  rename_leads id h hremoved hrename hmove hlog

end Rename

end SotFs
