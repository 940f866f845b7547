/-
Module: SotFs.Proofs.TreeRefinement
Layer: Proofs
Purpose: The handlers of the changing requests against the tree of files. On a graph that shows a tree, under
  the context of its caller and as long as no insertion is refused, each of them replies what the tree gives,
  leaves the tree that it leaves and again a graph that shows a tree; or it leaves the request without a reply
  when a file would grow past the longest byte vector.
Trusted boundary: none
Main exports: FuseRequest.Fits, handle_presentable, Fuse.Answers, Fuse.Shows, handle_serves
-/
import SotFs.Proofs.TreeReads
import SotFs.Proofs.TreeCalls
import SotFs.Proofs.XattrNames

namespace SotFs

open Std (ExtTreeMap ExtTreeSet)
open Foundation

/-- What the kernel sends: numbers of inodes that it was told of, and ends of writes within the address space. -/
def FuseRequest.Fits : FuseRequest → Prop
  | .setattr i .. | .link i .. | .setxattr i .. | .removexattr i _ => i < 2 ^ 32
  | .write i offset data => i < 2 ^ 32 ∧ 0 ≤ offset ∧ offset.toNat + data.length < 2 ^ 64
  | _ => True

/-! ### What a request leaves is a tree again -/

section Presentable

variable {m : Mount} {g g' : TypeGraph} {now : Nat → Timestamp} {req : FuseCaller}

/-- A call that issues no id is accepted. -/
theorem accepted_of_counters (hi : g'.nextInode = g.nextInode) (hd : g'.nextDir = g.nextDir)
    (hc : g'.nextCap = g.nextCap) (hb : g'.nextBlock = g.nextBlock) (he : g'.nextEdge = g.nextEdge) :
    Accepted g g' where
  inode _ hle hlt := absurd (hlt.trans_eq hi) (not_lt.mpr hle)
  dir _ hle hlt := absurd (hlt.trans_eq hd) (not_lt.mpr hle)
  cap _ hle hlt := absurd (hlt.trans_eq hc) (not_lt.mpr hle)
  block _ hle hlt := absurd (hlt.trans_eq hb) (not_lt.mpr hle)
  edge _ hle hlt := absurd (hlt.trans_eq he) (not_lt.mpr hle)

namespace TypeGraph.Presentable

/-- The graph that a handler works on shows what the mount shows. -/
theorem called (h : g.Presentable) (req : FuseCaller) : (g.setCapCtx (ctxFromReq req)).Presentable :=
  h.withSides g.provLog (ctxFromReq req)

/-- An operation that a handler calls in the directories it found leaves a tree if it is accepted. -/
theorem afterCall (h : g.Presentable) (op : Op) (hdirs : ∀ d ∈ op.dirs, ∃ i, g.dirForInode i = some d)
    (hlinks : ∀ {g t}, op.Links g t → idToArena t = t) (hquota : ∀ d il bl, op ≠ .setQuota d il bl)
    (hacc : Accepted g (op.apply now g).2) : (op.apply now g).2.Presentable := by
  refine h.apply ⟨⟨?_, hacc⟩, ?_, hquota⟩
  · intro d hd
    obtain ⟨i, hi⟩ := hdirs d hd
    exact h.inv.liveDir_iff.mpr ⟨i, h.inv.dirForInode_iff.mp hi⟩
  · rintro ⟨t, i, hlink, hi, hid⟩
    rw [TypeGraph.getInode, Arena.get_eq_data, hlinks hlink] at hi
    exact hid (h.inv.inodeIds.id_eq hi)

/-- So does one that a handler calls for an inode. -/
theorem afterStep (h : g.Presentable) (op : Op) (hdirs : op.dirs = []) (hlinks : ∀ {g t}, ¬ op.Links g t)
    (hquota : ∀ d il bl, op ≠ .setQuota d il bl) (hacc : Accepted g (op.apply now g).2) :
    (op.apply now g).2.Presentable :=
  h.afterCall op (by simp [hdirs]) (fun hlink => absurd hlink hlinks) hquota hacc

end TypeGraph.Presentable

theorem chmod_accepted (i : InodeId) (mode : UInt16) : Accepted g (chmod now i mode g).2 := by
  rcases chmod_cases now i mode g with ⟨o, _, heq⟩ | ⟨_, heq⟩
  all_goals
    rw [heq]
    exact accepted_of_counters rfl rfl rfl rfl rfl

theorem chown_accepted (i : InodeId) (uid gid : Option UInt32) : Accepted g (chown now i uid gid g).2 := by
  rcases chown_cases now i uid gid g with ⟨o, _, heq⟩ | ⟨_, heq⟩
  all_goals
    rw [heq]
    exact accepted_of_counters rfl rfl rfl rfl rfl

theorem truncate_accepted (i : InodeId) (size : Nat) : Accepted g (truncate now i size g).2 := by
  rcases truncate_spec now i size g with ⟨_, heq⟩ | ⟨_, _, heq⟩ | ⟨_, heq⟩
  all_goals
    rw [heq]
    exact accepted_of_counters rfl rfl rfl rfl rfl

/-- The context issues nothing. -/
theorem Accepted.called (hacc : Accepted g g') (req : FuseCaller) : Accepted (g.setCapCtx (ctxFromReq req)) g' :=
  ⟨hacc.inode, hacc.dir, hacc.cap, hacc.block, hacc.edge⟩

/-- setattr leaves a tree, whatever becomes of its steps. -/
theorem setattr_presentable {now : Nat → Nat → Timestamp} (h : m.graph.Presentable) (i : InodeId)
    (mode uid gid : Option UInt32) (size : Option Nat) :
    (Fuse.setattr now req i mode uid gid size m).2.graph.Presentable := by
  unfold Fuse.setattr
  refine setattrStep_keeps (P := TypeGraph.Presentable) (h.called req) (fun g hg => ?_) ?_
  · exact hg.afterStep (.chmod i (Fuse.permsOf (mode.getD 0)).mode) rfl id (by simp) (chmod_accepted i _)
  intro m hm
  refine setattrStep_keeps (P := TypeGraph.Presentable) hm (fun g hg => ?_) ?_
  · exact hg.afterStep (.chown i uid gid) rfl id (by simp) (chown_accepted i uid gid)
  intro m hm
  refine setattrStep_keeps (P := TypeGraph.Presentable) hm (fun g hg => ?_) ?_
  · exact hg.afterStep (.truncate i (size.getD 0)) rfl id (by simp) (truncate_accepted i _)
  intro m hm
  split <;> exact hm

/-- Opening a created file does nothing to the graph. -/
theorem create_graph {parent : InodeId} {name : OsStr} {mode : UInt32} {d : DirId}
    (hd : (m.graph.setCapCtx (ctxFromReq req)).dirForInode parent = some d) :
    (Fuse.create now req parent name mode m).2.graph =
      (createFile now d name.toStr req.uid req.gid (Fuse.permsOf mode) (m.graph.setCapCtx (ctxFromReq req))).2 := by
  simp only [Fuse.create, hd]
  split <;> (rename_i heq; rw [heq])

/-- Every accepted request leaves a graph that shows a tree. -/
theorem handle_presentable {now : Nat → Nat → Timestamp} (h : m.graph.Presentable) {request : FuseRequest}
    (hfits : request.Fits) (hacc : Accepted m.graph (request.handle now req m).2.graph) :
    (request.handle now req m).2.graph.Presentable := by
  have hcalled := h.called req
  replace hacc := hacc.called req
  cases request with
  | setattr ino mode uid gid size => exact setattr_presentable h ino mode uid gid size
  | mkdir parent name mode =>
      cases hd : (m.graph.setCapCtx (ctxFromReq req)).dirForInode parent with
      | none =>
          simp only [FuseRequest.handle, Fuse.mkdir, hd]
          exact hcalled
      | some d =>
          simp only [FuseRequest.handle, Fuse.mkdir, hd, respond_graph] at hacc ⊢
          exact hcalled.afterCall (.mkdir d name.toStr req.uid req.gid (Fuse.permsOf mode))
            (List.forall_mem_singleton.mpr ⟨parent, hd⟩) (by simp [Op.Links]) (by simp) hacc
  | rmdir parent name =>
      cases hd : (m.graph.setCapCtx (ctxFromReq req)).dirForInode parent with
      | none =>
          simp only [FuseRequest.handle, Fuse.rmdir, hd]
          exact hcalled
      | some d =>
          simp only [FuseRequest.handle, Fuse.rmdir, hd, respond_graph] at hacc ⊢
          exact hcalled.afterCall (.rmdir d name.toStr)
            (List.forall_mem_singleton.mpr ⟨parent, hd⟩) (by simp [Op.Links]) (by simp) hacc
  | unlink parent name =>
      cases hd : (m.graph.setCapCtx (ctxFromReq req)).dirForInode parent with
      | none =>
          simp only [FuseRequest.handle, Fuse.unlink, hd]
          exact hcalled
      | some d =>
          simp only [FuseRequest.handle, Fuse.unlink, hd, respond_graph] at hacc ⊢
          exact hcalled.afterCall (.unlink d name.toStr)
            (List.forall_mem_singleton.mpr ⟨parent, hd⟩) (by simp [Op.Links]) (by simp) hacc
  | symlink parent name target =>
      cases hd : (m.graph.setCapCtx (ctxFromReq req)).dirForInode parent with
      | none =>
          simp only [FuseRequest.handle, Fuse.symlink, hd]
          exact hcalled
      | some d =>
          simp only [FuseRequest.handle, Fuse.symlink, hd, respond_graph] at hacc ⊢
          exact hcalled.afterCall (.symlink d name.toStr target.toStr req.uid req.gid)
            (List.forall_mem_singleton.mpr ⟨parent, hd⟩) (by simp [Op.Links]) (by simp) hacc
  | link ino newparent newname =>
      cases hd : (m.graph.setCapCtx (ctxFromReq req)).dirForInode newparent with
      | none =>
          simp only [FuseRequest.handle, Fuse.link, hd]
          exact hcalled
      | some d =>
          simp only [FuseRequest.handle, Fuse.link, hd, respond_graph] at hacc ⊢
          exact hcalled.afterCall (.link d newname.toStr ino)
            (List.forall_mem_singleton.mpr ⟨newparent, hd⟩) (by
              rintro g t ⟨rfl, _⟩
              exact idToArena_of_lt hfits) (by simp) hacc
  | create parent name mode =>
      cases hd : (m.graph.setCapCtx (ctxFromReq req)).dirForInode parent with
      | none =>
          simp only [FuseRequest.handle, Fuse.create, hd]
          exact hcalled
      | some d =>
          rw [FuseRequest.handle, create_graph hd] at hacc ⊢
          exact hcalled.afterCall (.createFile d name.toStr req.uid req.gid (Fuse.permsOf mode))
            (List.forall_mem_singleton.mpr ⟨parent, hd⟩) (by simp [Op.Links]) (by simp) hacc
  | rename parent name newparent newname =>
      cases hs : (m.graph.setCapCtx (ctxFromReq req)).dirForInode parent with
      | none =>
          simp only [FuseRequest.handle, Fuse.rename, hs]
          exact hcalled
      | some sd =>
          cases hd : (m.graph.setCapCtx (ctxFromReq req)).dirForInode newparent with
          | none =>
              simp only [FuseRequest.handle, Fuse.rename, hs, hd]
              exact hcalled
          | some dd =>
              simp only [FuseRequest.handle, Fuse.rename, hs, hd, respond_graph] at hacc ⊢
              exact hcalled.afterCall (.rename sd name.toStr dd newname.toStr)
                (List.forall_mem_cons.mpr ⟨⟨parent, hs⟩, List.forall_mem_singleton.mpr ⟨newparent, hd⟩⟩)
                (by simp [Op.Links]) (by simp) hacc
  | write ino offset data =>
      simp only [FuseRequest.handle, Fuse.write, respond_graph] at hacc ⊢
      exact hcalled.afterStep (.writeData ino _ data) rfl id (by simp) hacc
  | setxattr ino name value =>
      cases hsplit : Fuse.splitXattr name.toStr with
      | none =>
          simp only [FuseRequest.handle, Fuse.setxattr, hsplit]
          exact h
      | some key =>
          simp only [FuseRequest.handle, Fuse.setxattr, hsplit, respond_graph] at hacc ⊢
          exact hcalled.afterStep (.setxattr ino key.1 key.2 value) rfl id (by simp) hacc
  | removexattr ino name =>
      cases hsplit : Fuse.splitXattr name.toStr with
      | none =>
          simp only [FuseRequest.handle, Fuse.removexattr, hsplit]
          exact h
      | some key =>
          simp only [FuseRequest.handle, Fuse.removexattr, hsplit, respond_graph] at hacc ⊢
          exact hcalled.afterStep (.removexattr ino key.1 key.2) rfl id (by simp) hacc

end Presentable

/-! ### Refusals -/

section Refusals

variable {g : TypeGraph} {now : Nat → Timestamp} {d : DirId} {pi i : InodeId} {n : String}

theorem reserved_of_not_userName (hn : ¬ UserName n) : n = "." ∨ n = ".." := by
  rw [UserName, not_and_or, not_not, not_not] at hn
  exact hn

/-- What an entry of the tree leads to in the graph. -/
theorem TypeGraph.Presentable.exists_target (h : g.Presentable) (hd : g.dirInode d = some pi)
    (hi : g.fileTree.entry (pi, n) = some i) :
    ∃ inode, g.resolveName d n = some i ∧ g.inodes.data i = some inode ∧ g.getInode i = some inode ∧
      (g.fileTree.IsDir i ↔ inode.vtype = .directory) := by
  rw [h.inv.entry_eq hd] at hi
  obtain ⟨e, he⟩ := h.inv.resolveName_iff.mp hi
  obtain ⟨inode, hdata, hget⟩ := h.target_live he
  refine ⟨inode, hi, hdata, hget, ?_, fun hkind => ⟨_, node_eq hdata, hkind⟩⟩
  rintro ⟨v, hv, hkind⟩
  rw [node_eq hdata] at hv
  cases hv
  exact hkind

variable (h : g.Presentable) (hctx : g.capCtx.capId = none) (hd : g.dirInode d = some pi)

include hctx

theorem unlink_reserved (hn : ¬ UserName n) : unlink now d n g = (.err (.nameNotFound n), g) := by
  rw [unlink, requireCap_anonymous hctx]
  exact if_pos (reserved_of_not_userName hn)

theorem rmdir_reserved (hn : ¬ UserName n) : rmdir now d n g = (.err (.nameNotFound n), g) := by
  rw [rmdir, requireCap_anonymous hctx]
  exact if_pos (reserved_of_not_userName hn)

theorem link_reserved (hn : ¬ UserName n) : link now d n i g = (.err (.nameNotFound n), g) := by
  rw [link, requireCap_anonymous hctx]
  exact if_pos (reserved_of_not_userName hn)

include h hd

theorem unlink_missing (hn : UserName n) (hi : g.fileTree.entry (pi, n) = none) :
    unlink now d n g = (.err (.nameNotFound n), g) := by
  have hlisted : ¬ d ∉ g.dirContains := not_not.mpr ((h.inv.dirKeys d).mpr ⟨pi, hd⟩)
  have hfind : (g.dirEntries d).find? (fun entry => entry.2.2 = n) = none := by
    rw [Option.eq_none_iff_forall_ne_some]
    intro x hx
    obtain ⟨_, he⟩ := h.inv.find_name.mp hx
    rw [h.inv.entry_eq hd, h.inv.resolveName_iff.mpr ⟨_, he⟩] at hi
    cases hi
  rw [unlink, requireCap_anonymous hctx]
  dsimp only
  rw [if_neg (not_or.mpr hn), if_neg hlisted, hfind]

theorem unlink_directory (hn : UserName n) (hi : g.fileTree.entry (pi, n) = some i) (hdir : g.fileTree.IsDir i) :
    unlink now d n g = (.err (.notAFile i), g) := by
  obtain ⟨inode, hres, _, hget, hkind⟩ := h.exists_target hd hi
  obtain ⟨e, he⟩ := h.inv.resolveName_iff.mp hres
  have hlisted : ¬ d ∉ g.dirContains := not_not.mpr ((h.inv.dirKeys d).mpr ⟨pi, hd⟩)
  have hfind : (g.dirEntries d).find? (fun entry => entry.2.2 = n) = some (e, i, n) :=
    h.inv.find_name.mpr ⟨rfl, he⟩
  rw [unlink, requireCap_anonymous hctx]
  dsimp only
  rw [if_neg (not_or.mpr hn), if_neg hlisted, hfind]
  dsimp only
  rw [hget]
  exact if_pos (hkind.mp hdir)

theorem rmdir_missing (hn : UserName n) (hi : g.fileTree.entry (pi, n) = none) :
    rmdir now d n g = (.err (.nameNotFound n), g) := by
  rw [h.inv.entry_eq hd] at hi
  rw [rmdir, requireCap_anonymous hctx]
  dsimp only
  rw [if_neg (not_or.mpr hn), hi]

theorem rmdir_file (hn : UserName n) (hi : g.fileTree.entry (pi, n) = some i) (hfile : ¬ g.fileTree.IsDir i) :
    rmdir now d n g = (.err (.notADirectory i), g) := by
  obtain ⟨inode, hres, _, hget, hkind⟩ := h.exists_target hd hi
  rw [rmdir, requireCap_anonymous hctx]
  dsimp only
  rw [if_neg (not_or.mpr hn), hres]
  dsimp only
  rw [hget]
  exact if_pos fun hdir => hfile (hkind.mpr hdir)

theorem rmdir_full (now : Nat → Timestamp) (hn : UserName n) (hi : g.fileTree.entry (pi, n) = some i) (hdir : g.fileTree.IsDir i)
    (hfull : ¬ g.fileTree.IsEmpty i) : ∃ td, rmdir now d n g = (.err (.dirNotEmpty td), g) := by
  obtain ⟨inode, hres, _, hget, hkind⟩ := h.exists_target hd hi
  obtain ⟨td, htd⟩ := h.inv.isDir_iff.mp hdir
  rw [h.inv.isEmpty_iff htd, Bool.not_eq_false] at hfull
  refine ⟨td, ?_⟩
  rw [rmdir, requireCap_anonymous hctx]
  dsimp only
  rw [if_neg (not_or.mpr hn), hres]
  dsimp only
  rw [hget]
  dsimp only
  rw [if_neg (not_not.mpr (hkind.mp hdir)), h.inv.dirForInode_iff.mpr htd]
  exact if_pos hfull

omit h hd in
theorem rename_reserved {sd dd : DirId} {sn dn : String} (hn : ¬ UserName sn ∨ ¬ UserName dn) :
    rename now sd sn dd dn g = (.err (.nameNotFound sn), g) := by
  have hreserved : sn = "." ∨ sn = ".." ∨ dn = "." ∨ dn = ".." := by
    rcases hn with hn | hn
    · exact (reserved_of_not_userName hn).elim .inl fun hdots => .inr (.inl hdots)
    · exact .inr (.inr (reserved_of_not_userName hn))
  rw [rename, requireCap_anonymous hctx]
  exact if_pos hreserved

variable {dd : DirId} {di : InodeId} {dn : String} (hn : UserName n) (hdn : UserName dn)

include hn hdn

theorem rename_missing (hi : g.fileTree.entry (pi, n) = none) :
    rename now d n dd dn g = (.err (.nameNotFound n), g) := by
  rw [h.inv.entry_eq hd] at hi
  rw [rename, requireCap_anonymous hctx]
  dsimp only
  rw [if_neg (by simp [hn.1, hn.2, hdn.1, hdn.2]), renameSameDir, renameCrossDir, hi, ite_self]

omit hdn in
/-- A rename of a name to itself leaves the files. -/
theorem rename_itself (now : Nat → Timestamp) (hi : g.fileTree.entry (pi, n) = some i) :
    ∃ g', rename now d n d n g = (.ok (), g') ∧ g'.fileTree = g.fileTree := by
  rw [h.inv.entry_eq hd] at hi
  rw [rename, requireCap_anonymous hctx]
  dsimp only
  rw [if_neg (by simp [hn.1, hn.2]), if_pos rfl, renameSameDir, hi]
  dsimp only
  rw [if_pos rfl]
  exact ⟨_, rfl, rfl⟩

omit h hd in
theorem rename_cycle (hne : d ≠ dd) (hi : g.resolveName d n = some i) (hcycle : g.wouldCycle i dd = true) :
    rename now d n dd dn g = (.err .wouldCreateCycle, g) := by
  rw [rename, requireCap_anonymous hctx]
  dsimp only
  rw [if_neg (by simp [hn.1, hn.2, hdn.1, hdn.2]), if_neg hne, renameCrossDir, hi]
  dsimp only
  rw [if_pos hcycle]

omit hd in
/-- A directory with entries is not replaced. -/
theorem rename_full (now : Nat → Timestamp) (hd' : g.dirInode dd = some di) (hne : (d, n) ≠ (dd, dn))
    (hi : g.resolveName d n = some i)
    (hcycle : d ≠ dd → g.wouldCycle i dd = false) {j : InodeId} (hj : g.fileTree.entry (di, dn) = some j)
    (hdir : g.fileTree.IsDir j) (hfull : ¬ g.fileTree.IsEmpty j) :
    ∃ td, rename now d n dd dn g = (.err (.dirNotEmpty td), g) := by
  obtain ⟨inode, hres, _, hget, hkind⟩ := h.exists_target hd' hj
  obtain ⟨td, heq⟩ := rmdir_full h hctx hd' now hdn hj hdir hfull
  have hremove : g.removeDestination now dd dn (g.resolveName dd dn) = (.err (.dirNotEmpty td), g) := by
    rw [hres, TypeGraph.removeDestination, hget]
    dsimp only
    rw [if_pos (hkind.mp hdir), heq]
  refine ⟨td, ?_⟩
  rw [rename, requireCap_anonymous hctx]
  dsimp only
  rw [if_neg (by simp [hn.1, hn.2, hdn.1, hdn.2])]
  by_cases hsame : d = dd
  · subst hsame
    rw [if_pos rfl, renameSameDir, hi]
    dsimp only
    rw [if_neg fun hname => hne (by rw [hname]), hremove]
  · rw [if_neg hsame, renameCrossDir, hi]
    dsimp only
    rw [hcycle hsame, if_neg Bool.false_ne_true, hremove]

end Refusals

/-! ### One request -/

/-- A handler answers as the file service does and leaves what the service leaves. -/
def Fuse.Answers (handled : Fuse.Handled) (served : FuseReply × FileService) : Prop :=
  handled.1 = some served.1 ∧ handled.2.service = served.2

/-- A handler answers as the tree does, leaves what the tree leaves and opens no file. -/
def Fuse.Shows (m : Mount) (handled : Fuse.Handled) (served : FuseReply × FileTree) : Prop :=
  ∃ g : TypeGraph, handled = (some served.1, { m with graph := g }) ∧ g.fileTree = served.2

/-- Only the reply to a creation has a file handle. -/
theorem FileTree.serve_ne_created {t : FileTree} {now : Nat → Nat → Timestamp} {req : FuseCaller} {fh : Nat}
    {request : FuseRequest} (hcreate : ∀ parent name mode, request ≠ .create parent name mode)
    (attr : FileAttr) (fh' : Nat) : (t.serve now req fh request).1 ≠ .created attr fh' := by
  cases request with
  | create parent name mode => exact absurd rfl (hcreate parent name mode)
  | _ =>
      simp only [serve, setattr, mkdir, rmdir, unlink, rename, link, write, symlink, setxattr, removexattr]
      repeat' split
      all_goals simp

/-- Without a file handle in the reply the service is the tree. -/
theorem Fuse.Shows.answers {m : Mount} {now : Nat → Nat → Timestamp} {req : FuseCaller} {handled : Fuse.Handled}
    {request : FuseRequest} (hshows : Fuse.Shows m handled (m.graph.fileTree.serve now req m.nextFh request))
    (hne : ∀ attr fh, (m.graph.fileTree.serve now req m.nextFh request).1 ≠ .created attr fh) :
    Fuse.Answers handled (m.service.serve now req request) := by
  obtain ⟨g, rfl, htree⟩ := hshows
  unfold FileService.serve
  dsimp only [Mount.service]
  split
  · rename_i attr fh tree heq
    exact absurd (congrArg Prod.fst heq) (hne attr fh)
  · rename_i reply tree _ heq
    rw [heq] at htree ⊢
    exact ⟨rfl, FileService.ext htree rfl rfl⟩

section Handlers

variable {g : TypeGraph} {m : Mount} {req : FuseCaller} {now : Nat → Nat → Timestamp} {fh : Nat}
  {parent newparent ino : InodeId} {name newname target : OsStr} {mode : UInt32}

/-- A directory is what a handler finds one for. -/
theorem TypeGraph.Presentable.not_isDir (h : g.Presentable) (hd : g.dirForInode ino = none) :
    ¬ g.fileTree.IsDir ino := by
  intro hdir
  obtain ⟨d, hlive⟩ := h.inv.isDir_iff.mp hdir
  rw [h.inv.dirForInode_iff.mpr hlive] at hd
  cases hd

theorem TypeGraph.Presentable.isDir_of_dirForInode {d : DirId} (h : g.Presentable) (hd : g.dirForInode ino = some d) :
    g.fileTree.IsDir ino ∧ g.dirInode d = some ino :=
  ⟨h.inv.isDir_iff.mpr ⟨d, h.inv.dirForInode_iff.mp hd⟩, h.inv.dirForInode_iff.mp hd⟩

/-- The reply about an inode that is in the tree. -/
theorem Fuse.Shows.entry {v : FileNode} {t : FileTree} (hslot : idToArena ino = ino)
    (hv : g.fileTree.node ino = some v) (htree : g.fileTree = t) :
    Fuse.Shows m (Fuse.entryOf g ino, { m with graph := g }) (.entry (inodeToAttr v.inode), t) := by
  refine ⟨g, ?_, htree⟩
  rw [Fuse.entryOf, getInode_of_node hslot hv]
  rfl

/-- The number that was issued last is its slot. -/
theorem TypeGraph.Fits.slot (hfits : g.Fits) {i : InodeId} (hnext : g.nextInode = i + 1) : idToArena i = i := by
  have hlt : i < NODE_CAPACITY := Nat.lt_of_succ_le (hnext.symm.trans_le hfits.nextInode_le)
  exact idToArena_of_lt (hlt.trans (by decide))

/-- An operation that panics gives no reply. -/
theorem respond_panic {α : Type} {result : Outcome α × TypeGraph} {onOk : α → TypeGraph → Option FuseReply}
    {onErr : GraphError → Errno} (hpanic : result.1 = .panic) : (Fuse.respond m result onOk onErr).1 = none := by
  obtain ⟨o, g⟩ := result
  cases hpanic
  rfl

/-- The context is not shown. -/
theorem fileTree_called (hg : m.graph.setCapCtx (ctxFromReq req) = g) : m.graph.fileTree = g.fileTree := by
  rw [← hg]
  rfl

variable (h : g.Presentable) (hctx : g.capCtx.capId = none) (hg : m.graph.setCapCtx (ctxFromReq req) = g)

include h hctx hg

theorem mkdir_shows (hfits : (Fuse.mkdir (now 0) req parent name mode m).2.graph.Fits) :
    Fuse.Shows m (Fuse.mkdir (now 0) req parent name mode m)
      (g.fileTree.mkdir now req parent name.toStr mode) := by
  rw [FileTree.mkdir]
  cases hd : g.dirForInode parent with
  | none =>
      rw [if_pos (h.not_isDir hd)]
      simp only [Fuse.mkdir, hg, hd]
      exact ⟨g, rfl, rfl⟩
  | some d =>
      obtain ⟨hdir, hlive⟩ := h.isDir_of_dirForInode hd
      simp only [Fuse.mkdir, hg, hd, respond_graph] at hfits ⊢
      rw [if_neg (not_not.mpr hdir)]
      rcases mkdir_tree h hctx hlive hfits with ⟨hcan, g', heq, htree⟩ | ⟨hno, e, heq⟩
      · rw [heq] at hfits
        have hslot := hfits.slot (congrArg FileTree.next htree)
        have hnode : g'.fileTree.node g.nextInode =
            some (.made (madeDirInode (now 0) g req.uid req.gid (Fuse.permsOf mode)) none) := by
          rw [htree]
          exact Function.update_self _ _ _
        rw [if_neg (not_not.mpr hcan), heq]
        exact .entry hslot hnode htree
      · rw [if_pos hno, heq]
        exact ⟨g, rfl, rfl⟩

theorem symlink_shows (hfits : (Fuse.symlink (now 0) req parent name target m).2.graph.Fits) :
    Fuse.Shows m (Fuse.symlink (now 0) req parent name target m)
      (g.fileTree.symlink now req parent name.toStr target.toStr) := by
  rw [FileTree.symlink]
  cases hd : g.dirForInode parent with
  | none =>
      rw [if_pos (h.not_isDir hd)]
      simp only [Fuse.symlink, hg, hd]
      exact ⟨g, rfl, rfl⟩
  | some d =>
      obtain ⟨hdir, hlive⟩ := h.isDir_of_dirForInode hd
      simp only [Fuse.symlink, hg, hd, respond_graph] at hfits ⊢
      rw [if_neg (not_not.mpr hdir)]
      rcases symlink_tree h hctx hlive hfits with ⟨hcan, g', heq, htree⟩ | ⟨hname, heq⟩ | ⟨hname, htaken, heq⟩
      · rw [heq] at hfits
        have hslot := hfits.slot (congrArg FileTree.next htree)
        have hnode : g'.fileTree.node g.nextInode =
            some (.made (symlinkInode (now 0) g target.toStr req.uid req.gid) (some ⟨target.toStr⟩)) := by
          rw [htree]
          exact Function.update_self _ _ _
        rw [if_neg (Bool.eq_false_iff.mp hcan.1), if_neg (not_not.mpr hcan.2), heq]
        exact .entry hslot hnode htree
      · rw [if_pos hname, heq]
        exact ⟨g, rfl, rfl⟩
      · rw [if_neg (Bool.eq_false_iff.mp hname), if_pos htaken, heq]
        exact ⟨g, rfl, rfl⟩

/-- A file that is created is open under the next handle. -/
theorem create_answers (hfits : (Fuse.create (now 0) req parent name mode m).2.graph.Fits) :
    Fuse.Answers (Fuse.create (now 0) req parent name mode m)
      (FileService.serve now req ⟨g.fileTree, fun fh => m.openFiles[fh]?, m.nextFh⟩ (.create parent name mode)) := by
  rw [FileService.serve, FileTree.serve, FileTree.create]
  dsimp only
  cases hd : g.dirForInode parent with
  | none =>
      rw [if_pos (h.not_isDir hd)]
      simp only [Fuse.create, hg, hd]
      exact ⟨rfl, rfl⟩
  | some d =>
      obtain ⟨hdir, hlive⟩ := h.isDir_of_dirForInode hd
      rw [create_graph (hg ▸ hd), hg] at hfits
      simp only [Fuse.create, hg, hd]
      rw [if_neg (not_not.mpr hdir)]
      rcases createFile_tree h hctx hlive hfits with ⟨hcan, g', heq, htree⟩ | ⟨hno, e, heq⟩
      · rw [heq] at hfits
        have hslot := hfits.slot (congrArg FileTree.next htree)
        have hget : g'.getInode g.nextInode = some (createdInode (now 0) g req.uid req.gid (Fuse.permsOf mode)) := by
          refine getInode_of_node hslot (v := .made _ none) ?_
          rw [htree]
          exact Function.update_self _ _ _
        rw [if_neg (not_not.mpr hcan), heq]
        dsimp only
        rw [hget]
        exact ⟨rfl, FileService.ext htree (opened_insert m.nextFh g.nextInode) rfl⟩
      · rw [if_pos hno, heq]
        exact ⟨rfl, rfl⟩

theorem unlink_shows : Fuse.Shows m (Fuse.unlink (now 0) req parent name m)
    (g.fileTree.unlink parent name.toStr) := by
  rw [FileTree.unlink]
  cases hd : g.dirForInode parent with
  | none =>
      rw [if_pos (h.not_isDir hd)]
      simp only [Fuse.unlink, hg, hd]
      exact ⟨g, rfl, rfl⟩
  | some d =>
      obtain ⟨hdir, hlive⟩ := h.isDir_of_dirForInode hd
      simp only [Fuse.unlink, hg, hd]
      rw [if_neg (not_not.mpr hdir)]
      by_cases hn : UserName name.toStr
      · rw [if_neg (not_not.mpr hn)]
        cases hi : g.fileTree.entry (parent, name.toStr) with
        | none =>
            rw [unlink_missing h hctx hlive hn hi]
            exact ⟨g, rfl, rfl⟩
        | some i =>
            dsimp only
            by_cases hkind : g.fileTree.IsDir i
            · rw [if_pos hkind, unlink_directory h hctx hlive hn hi hkind]
              exact ⟨g, rfl, rfl⟩
            · obtain ⟨g', heq, htree⟩ := unlink_tree (now 0) h hctx hlive hn hi hkind
              rw [if_neg hkind, heq]
              exact ⟨g', rfl, htree⟩
      · rw [if_pos hn, unlink_reserved hctx hn]
        exact ⟨g, rfl, rfl⟩

theorem rmdir_shows : Fuse.Shows m (Fuse.rmdir (now 0) req parent name m)
    (g.fileTree.rmdir parent name.toStr) := by
  rw [FileTree.rmdir]
  cases hd : g.dirForInode parent with
  | none =>
      rw [if_pos (h.not_isDir hd)]
      simp only [Fuse.rmdir, hg, hd]
      exact ⟨g, rfl, rfl⟩
  | some d =>
      obtain ⟨hdir, hlive⟩ := h.isDir_of_dirForInode hd
      simp only [Fuse.rmdir, hg, hd]
      rw [if_neg (not_not.mpr hdir)]
      by_cases hn : UserName name.toStr
      · rw [if_neg (not_not.mpr hn)]
        cases hi : g.fileTree.entry (parent, name.toStr) with
        | none =>
            rw [rmdir_missing h hctx hlive hn hi]
            exact ⟨g, rfl, rfl⟩
        | some i =>
            dsimp only
            by_cases hkind : g.fileTree.IsDir i
            · rw [if_neg (not_not.mpr hkind)]
              by_cases hempty : g.fileTree.IsEmpty i
              · obtain ⟨g', heq, htree⟩ := rmdir_tree (now 0) h hctx hlive hn hi hkind hempty
                rw [if_neg (not_not.mpr hempty), heq]
                exact ⟨g', rfl, htree⟩
              · obtain ⟨td, heq⟩ := rmdir_full h hctx hlive (now 0) hn hi hkind hempty
                rw [if_pos hempty, heq]
                exact ⟨g, rfl, rfl⟩
            · rw [if_pos hkind, rmdir_file h hctx hlive hn hi hkind]
              exact ⟨g, rfl, rfl⟩
      · rw [if_pos hn, rmdir_reserved hctx hn]
        exact ⟨g, rfl, rfl⟩

omit h hctx hg in
/-- No node, no inode. -/
theorem getInode_of_node_none (hslot : idToArena ino = ino) (hv : g.fileTree.node ino = none) :
    g.getInode ino = none := by
  rw [TypeGraph.getInode, Arena.get_eq_data, hslot]
  exact node_eq_none.mp hv

theorem link_shows (hino : ino < 2 ^ 32) (hfits : (Fuse.link (now 0) req ino newparent newname m).2.graph.Fits) :
    Fuse.Shows m (Fuse.link (now 0) req ino newparent newname m)
      (g.fileTree.link ino newparent newname.toStr) := by
  have hslot := idToArena_of_lt hino
  rw [FileTree.link]
  cases hd : g.dirForInode newparent with
  | none =>
      rw [if_pos (h.not_isDir hd)]
      simp only [Fuse.link, hg, hd]
      exact ⟨g, rfl, rfl⟩
  | some d =>
      obtain ⟨hdir, hlive⟩ := h.isDir_of_dirForInode hd
      simp only [Fuse.link, hg, hd, respond_graph] at hfits ⊢
      rw [if_neg (not_not.mpr hdir)]
      by_cases hn : UserName newname.toStr
      swap
      · rw [if_pos hn, link_reserved hctx hn]
        exact ⟨g, rfl, rfl⟩
      rw [if_neg (not_not.mpr hn)]
      by_cases hfree : g.fileTree.entry (newparent, newname.toStr) = none
      swap
      · have hres := Option.isSome_iff_ne_none.mpr hfree
        rw [h.inv.entry_eq hlive] at hres
        rw [if_pos hfree, link, requireCap_anonymous hctx]
        dsimp only
        rw [if_neg (not_or.mpr hn), if_pos hres]
        exact ⟨g, rfl, rfl⟩
      rw [if_neg (not_not.mpr hfree)]
      have hres : ¬ (g.resolveName d newname.toStr).isSome = true := by
        rw [← h.inv.entry_eq hlive, hfree]
        exact Bool.false_ne_true
      cases hv : g.fileTree.node ino with
      | none =>
          dsimp only
          rw [link, requireCap_anonymous hctx]
          dsimp only
          rw [if_neg (not_or.mpr hn), if_neg hres, getInode_of_node_none hslot hv]
          exact ⟨g, rfl, rfl⟩
      | some v =>
          obtain ⟨hi, hview⟩ := of_node hv
          have hget := getInode_of_data hslot hi
          dsimp only
          by_cases hkind : v.inode.vtype = .directory
          · rw [if_pos hkind, link, requireCap_anonymous hctx]
            dsimp only
            rw [if_neg (not_or.mpr hn), if_neg hres, hget]
            dsimp only
            rw [if_pos hkind]
            exact ⟨g, rfl, rfl⟩
          · by_cases hmax : LINK_MAX ≤ v.inode.linkCount
            · rw [if_neg hkind, if_pos hmax, link, requireCap_anonymous hctx]
              dsimp only
              rw [if_neg (not_or.mpr hn), if_neg hres, hget]
              dsimp only
              rw [if_neg hkind, if_pos hmax]
              exact ⟨g, rfl, rfl⟩
            · obtain ⟨g', heq, htree⟩ := link_tree h hctx hlive hfits hslot hn hfree hi hkind (not_le.mp hmax)
              rw [hview] at htree
              have hnode : g'.fileTree.node ino = some { v with
                  inode := { v.inode with linkCount := v.inode.linkCount + 1 } } := by
                rw [htree]
                exact Function.update_self _ _ _
              rw [if_neg hkind, if_neg hmax, heq]
              exact .entry hslot hnode htree

theorem setxattr_shows {value : List UInt8} (hino : ino < 2 ^ 32)
    (hleft : (Fuse.setxattr (now 0) req ino name value m).2.graph.Presentable) :
    Fuse.Shows m (Fuse.setxattr (now 0) req ino name value m)
      (g.fileTree.setxattr ino name.toStr value) := by
  have hslot := idToArena_of_lt hino
  rw [FileTree.setxattr]
  cases hsplit : Fuse.splitXattr name.toStr with
  | none =>
      simp only [Fuse.setxattr, hsplit]
      exact ⟨m.graph, rfl, fileTree_called hg⟩
  | some key =>
      simp only [Fuse.setxattr, hsplit, hg, respond_graph] at hleft ⊢
      cases hv : g.fileTree.node ino with
      | none =>
          have hgone : g.containsInode ino = false := by
            rw [TypeGraph.containsInode, Arena.contains_eq_isSome, hslot, node_eq_none.mp hv]
            rfl
          rw [setxattr, requireCap_anonymous hctx]
          dsimp only
          rw [hgone]
          exact ⟨g, rfl, rfl⟩
      | some v =>
          obtain ⟨hi, hview⟩ := of_node hv
          have hlive : g.containsInode ino = true := by
            rw [TypeGraph.containsInode, Arena.contains_eq_isSome, hslot, hi]
            rfl
          dsimp only
          by_cases hlarge : 65536 < value.length
          · rw [if_pos hlarge, setxattr, requireCap_anonymous hctx]
            dsimp only
            rw [hlive, if_neg (by simp), if_pos hlarge]
            exact ⟨g, rfl, rfl⟩
          · obtain ⟨x, g', heq, htree⟩ := setxattr_tree h hctx hslot hi hleft.inv (not_lt.mp hlarge)
            have hmap : g.attributes ino = v.xattr := congrArg FileNode.xattr hview
            rw [hview, hmap] at htree
            rw [if_neg hlarge, heq]
            exact ⟨g', rfl, htree⟩

theorem removexattr_shows (hino : ino < 2 ^ 32)
    (hleft : (Fuse.removexattr (now 0) req ino name m).2.graph.Presentable) :
    Fuse.Shows m (Fuse.removexattr (now 0) req ino name m)
      (g.fileTree.removexattr ino name.toStr) := by
  have hslot := idToArena_of_lt hino
  rw [FileTree.removexattr]
  cases hsplit : Fuse.splitXattr name.toStr with
  | none =>
      simp only [Fuse.removexattr, hsplit]
      exact ⟨m.graph, rfl, fileTree_called hg⟩
  | some key =>
      simp only [Fuse.removexattr, hsplit, hg, respond_graph] at hleft ⊢
      cases hv : g.fileTree.node ino with
      | none =>
          have hgone : g.containsInode ino = false := by
            rw [TypeGraph.containsInode, Arena.contains_eq_isSome, hslot, node_eq_none.mp hv]
            rfl
          rw [removexattr, requireCap_anonymous hctx]
          dsimp only
          rw [hgone]
          exact ⟨g, rfl, rfl⟩
      | some v =>
          obtain ⟨hi, hview⟩ := of_node hv
          have hmap : g.attributes ino = v.xattr := congrArg FileNode.xattr hview
          dsimp only
          rw [← hmap]
          rcases removexattr_tree h hctx hslot hi hleft.inv with ⟨hset, g', heq, htree⟩ | ⟨hunset, heq⟩
          · rw [hview] at htree
            rw [if_neg hset, heq]
            exact ⟨g', rfl, htree⟩
          · rw [if_pos hunset, heq]
            exact ⟨g, rfl, rfl⟩

theorem rename_shows (hleft : (Fuse.rename (now 0) req parent name newparent newname m).2.graph.Presentable) :
    Fuse.Shows m (Fuse.rename (now 0) req parent name newparent newname m)
      (g.fileTree.rename parent name.toStr newparent newname.toStr) := by
  rw [FileTree.rename]
  cases hs : g.dirForInode parent with
  | none =>
      rw [if_pos (.inl (h.not_isDir hs))]
      simp only [Fuse.rename, hg, hs]
      exact ⟨g, rfl, rfl⟩
  | some sd =>
      cases hd : g.dirForInode newparent with
      | none =>
          rw [if_pos (.inr (h.not_isDir hd))]
          simp only [Fuse.rename, hg, hs, hd]
          exact ⟨g, rfl, rfl⟩
      | some dd =>
          obtain ⟨hsdir, hslive⟩ := h.isDir_of_dirForInode hs
          obtain ⟨hddir, hdlive⟩ := h.isDir_of_dirForInode hd
          simp only [Fuse.rename, hg, hs, hd, respond_graph] at hleft ⊢
          rw [if_neg (not_or.mpr ⟨not_not.mpr hsdir, not_not.mpr hddir⟩)]
          have hsame : sd = dd ↔ parent = newparent := by
            constructor
            · rintro rfl
              rw [hslive] at hdlive
              exact Option.some.inj hdlive
            · rintro rfl
              exact h.inv.shape.dir_inj hslive hdlive
          by_cases hnames : ¬ UserName name.toStr ∨ ¬ UserName newname.toStr
          · rw [if_pos hnames, rename_reserved hctx hnames]
            exact ⟨g, rfl, rfl⟩
          rw [if_neg hnames]
          rw [not_or, not_not, not_not] at hnames
          obtain ⟨hsn, hdn⟩ := hnames
          cases hi : g.fileTree.entry (parent, name.toStr) with
          | none =>
              rw [rename_missing h hctx hslive hsn hdn hi]
              exact ⟨g, rfl, rfl⟩
          | some i =>
              dsimp only
              have hres := hi
              rw [h.inv.entry_eq hslive] at hres
              by_cases hitself : parent = newparent ∧ name.toStr = newname.toStr
              · obtain ⟨hdirs, hname⟩ := hitself
                obtain ⟨g', heq, htree⟩ := rename_itself h hctx hslive hsn (now 0) hi
                rw [if_pos ⟨hdirs, hname⟩, ← hsame.mpr hdirs, ← hname, heq]
                exact ⟨g', rfl, htree⟩
              rw [if_neg hitself]
              have hcycle := h.wouldCycle_iff hres hdlive
              by_cases hinside : parent ≠ newparent ∧ g.fileTree.IsDir i ∧ g.fileTree.Inside i newparent
              · have hne : sd ≠ dd := fun hdirs => hinside.1 (hsame.mp hdirs)
                rw [if_pos hinside, rename_cycle hctx hsn hdn hne hres (hcycle.mpr hinside.2)]
                exact ⟨g, rfl, rfl⟩
              rw [if_neg hinside]
              have hne : (sd, name.toStr) ≠ (dd, newname.toStr) := by
                intro hkey
                exact hitself ⟨hsame.mp (congrArg Prod.fst hkey), congrArg Prod.snd hkey⟩
              have hacyclic : sd ≠ dd → g.wouldCycle i dd = false := by
                intro hdirs
                rw [← Bool.not_eq_true, hcycle]
                exact fun hbelow => hinside ⟨fun heq => hdirs (hsame.mpr heq), hbelow⟩
              by_cases hfull : ∃ j, g.fileTree.entry (newparent, newname.toStr) = some j ∧ g.fileTree.IsDir j ∧
                  ¬ g.fileTree.IsEmpty j
              · obtain ⟨j, hj, hdir, hentries⟩ := id hfull
                obtain ⟨td, heq⟩ :=
                  rename_full h hctx hsn hdn (now 0) hdlive hne hres hacyclic hj hdir hentries
                rw [if_pos hfull, heq]
                exact ⟨g, rfl, rfl⟩
              · obtain ⟨g', heq, htree⟩ := rename_tree h hctx hslive hdlive hleft.inv hsn hdn hne hres hacyclic
                  ((h.canReplace_iff hdlive).mpr hfull)
                rw [if_neg hfull, heq]
                exact ⟨g', rfl, htree⟩

omit h in
/-- A write is answered unless the file outgrows a byte vector. -/
theorem write_shows {offset : Int} {data : List UInt8} (hfits : FuseRequest.Fits (.write ino offset data)) :
    (FuseRequest.Outgrows g.fileTree (.write ino offset data) ∧ (Fuse.write (now 0) req ino offset data m).1 = none) ∨
    (¬ FuseRequest.Outgrows g.fileTree (.write ino offset data) ∧
      Fuse.Shows m (Fuse.write (now 0) req ino offset data m)
        (g.fileTree.write now ino offset.toNat data)) := by
  obtain ⟨hino, hnonneg, hend⟩ := hfits
  have hslot := idToArena_of_lt hino
  have hoffset : (offset % 2 ^ 64).toNat = offset.toNat := by
    rw [Int.emod_eq_of_lt hnonneg (by omega)]
  unfold FuseRequest.Outgrows
  rw [FileTree.write, Fuse.write, hg]
  dsimp only
  rw [hoffset]
  cases hv : g.fileTree.node ino with
  | none =>
      rw [writeData, requireCap_anonymous hctx, getInode_of_node_none hslot hv]
      exact .inr ⟨by simp, g, rfl, rfl⟩
  | some v =>
      obtain ⟨hi, hview⟩ := of_node hv
      have hget := getInode_of_data hslot hi
      dsimp only
      by_cases hkind : v.inode.vtype = .regular
      · rw [if_neg (not_not.mpr hkind)]
        by_cases hlarge : isizeMax < offset.toNat + data.length
        · refine .inl ⟨⟨⟨v, rfl, hkind⟩, hlarge⟩, ?_⟩
          exact respond_panic (writeData_panics hctx hget hkind hend hlarge)
        · obtain ⟨g', heq, htree⟩ := writeData_tree (now 0) hctx hslot hi hkind (not_lt.mp hlarge)
          have hbytes : g.content ino = v.content := congrArg FileNode.content hview
          rw [hview, hbytes] at htree
          rw [heq]
          exact .inr ⟨fun hout => hlarge hout.2, g', rfl, htree⟩
      · rw [if_pos hkind, writeData, requireCap_anonymous hctx, hget]
        dsimp only
        rw [if_pos hkind]
        refine .inr ⟨?_, g, rfl, rfl⟩
        rintro ⟨⟨w, hw, hregular⟩, _⟩
        cases hw
        exact hkind hregular

omit h hctx hg in
/-- A step of setattr that succeeds if it is asked for changes one inode. -/
theorem setattrStep_modifies {requested : Bool} {op : TypeGraph → Outcome Unit × TypeGraph} {f : Inode → Inode}
    {v : FileNode} (hslot : idToArena ino = ino) (hv : g.fileTree.node ino = some v)
    (hop : requested = true → ∃ provLog, op g = (.ok (), { g.modifyInode ino f with provLog := provLog }))
    (hsame : requested = false → f v.inode = v.inode) :
    ∃ g' : TypeGraph, g'.capCtx = g.capCtx ∧
      g'.fileTree = g.fileTree.setNode ino (some { v with inode := f v.inode }) ∧
      ∀ next, Fuse.setattrStep requested op { m with graph := g } next = next { m with graph := g' } := by
  obtain ⟨hi, hview⟩ := of_node hv
  cases requested with
  | false =>
      have hkeep : Function.update g.fileTree.node ino (some v) = g.fileTree.node := by
        rw [← hv, Function.update_eq_self]
      rw [hsame rfl]
      exact ⟨g, rfl, FileTree.ext rfl hkeep.symm rfl, fun _ => rfl⟩
  | true =>
      obtain ⟨provLog, hok⟩ := hop rfl
      have htree := fileTree_modifyInode hslot hi f
      rw [hview] at htree
      refine ⟨{ g.modifyInode ino f with provLog := provLog }, rfl, htree, fun next => ?_⟩
      exact setattrStep_ok (fun _ => hok) fun hfalse => by cases hfalse

omit h in
/-- On a node of the tree mode and owner are set: what is left of setattr is the size. -/
theorem setattr_owned (now : Nat → Nat → Timestamp) (mode uid gid : Option UInt32) (size : Option Nat)
    {v : FileNode} (hslot : idToArena ino = ino) (hv : g.fileTree.node ino = some v) :
    ∃ g' : TypeGraph, g'.capCtx.capId = none ∧
      g'.fileTree = g.fileTree.setNode ino (some { v with inode := v.inode.owned mode uid gid }) ∧
      Fuse.setattr now req ino mode uid gid size m =
        Fuse.setattrStep size.isSome (truncate (now 2) ino (size.getD 0)) { m with graph := g' } fun m =>
          match m.graph.getInode ino with
          | some inode => (some (.attr (inodeToAttr inode)), m)
          | none => (some (.error .ENOENT), m) := by
  have hmoded : mode.isSome = true → ∃ provLog,
      chmod (now 0) ino (Fuse.permsOf (mode.getD 0)).mode g = (.ok (), { g.modifyInode ino fun i =>
        { i with permissions := (mode.map Fuse.permsOf).getD i.permissions } with provLog := provLog }) := by
    intro hsome
    obtain ⟨perms, rfl⟩ := Option.isSome_iff_exists.mp hsome
    rw [chmod, requireCap_anonymous hctx, getInode_of_node hslot hv]
    exact ⟨_, rfl⟩
  obtain ⟨g₁, hctx₁, htree₁, hstep₁⟩ := setattrStep_modifies (m := m) hslot hv hmoded
    (by
      intro hnone
      rw [Option.isSome_eq_false_iff, Option.isNone_iff_eq_none] at hnone
      rw [hnone]
      rfl)
  have hv₁ : g₁.fileTree.node ino = some { v with
      inode := { v.inode with permissions := (mode.map Fuse.permsOf).getD v.inode.permissions } } := by
    rw [htree₁]
    exact Function.update_self _ _ _
  rw [← hctx₁] at hctx
  have howned : (uid.isSome || gid.isSome) = true → ∃ provLog,
      chown (now 1) ino uid gid g₁ = (.ok (), { g₁.modifyInode ino fun i =>
        { i with uid := uid.getD i.uid, gid := gid.getD i.gid } with provLog := provLog }) := by
    intro _
    rw [chown, requireCap_anonymous hctx, getInode_of_node hslot hv₁]
    exact ⟨_, rfl⟩
  obtain ⟨g₂, hctx₂, htree₂, hstep₂⟩ := setattrStep_modifies (m := m) hslot hv₁ howned
    (by
      intro hnone
      rw [Bool.or_eq_false_iff, Option.isSome_eq_false_iff, Option.isSome_eq_false_iff,
        Option.isNone_iff_eq_none, Option.isNone_iff_eq_none] at hnone
      rw [hnone.1, hnone.2]
      rfl)
  refine ⟨g₂, by rw [hctx₂, hctx], ?_, ?_⟩
  · rw [htree₂, htree₁]
    exact FileTree.ext rfl (Function.update_idem _ _ _) rfl
  · rw [Fuse.setattr, hg, hstep₁]
    exact hstep₂ _

omit h in
/-- A number without a node gets an error from whatever step is asked for. -/
theorem setattr_unknown {mode uid gid : Option UInt32} {size : Option Nat} (hslot : idToArena ino = ino)
    (hv : g.fileTree.node ino = none) :
    Fuse.setattr now req ino mode uid gid size m = (some (.error .ENOENT), { m with graph := g }) := by
  have hnone := getInode_of_node_none hslot hv
  unfold Fuse.setattr Fuse.setattrStep
  dsimp only
  rw [hg, chmod_missing hctx hnone, chown_missing hctx hnone, truncate_missing hctx hnone, hnone]
  dsimp only
  rw [ite_self, ite_self, ite_self]

omit h in
/-- setattr is answered unless the file outgrows a byte vector. -/
theorem setattr_shows {mode uid gid : Option UInt32} {size : Option Nat} (hino : ino < 2 ^ 32) :
    (FuseRequest.Outgrows g.fileTree (.setattr ino mode uid gid size) ∧
      (Fuse.setattr now req ino mode uid gid size m).1 = none) ∨
    (¬ FuseRequest.Outgrows g.fileTree (.setattr ino mode uid gid size) ∧
      Fuse.Shows m (Fuse.setattr now req ino mode uid gid size m)
        (g.fileTree.setattr now ino mode uid gid size)) := by
  have hslot := idToArena_of_lt hino
  rw [FileTree.setattr]
  cases hv : g.fileTree.node ino with
  | none =>
      rw [setattr_unknown hctx hg hslot hv]
      refine .inr ⟨?_, g, rfl, rfl⟩
      cases size with
      | none => exact id
      | some size =>
          rintro ⟨⟨v, hv', _⟩, _⟩
          rw [hv] at hv'
          cases hv'
  | some v =>
      obtain ⟨g', hctx', htree, heq⟩ := setattr_owned hctx hg now mode uid gid size hslot hv
      have hv' : g'.fileTree.node ino = some { v with inode := v.inode.owned mode uid gid } := by
        rw [htree]
        exact Function.update_self _ _ _
      obtain ⟨hi, hview⟩ := of_node hv'
      rw [heq]
      dsimp only
      rw [← htree]
      cases size with
      | none =>
          refine .inr ⟨id, g', ?_, rfl⟩
          rw [Option.isSome_none, Fuse.setattrStep, if_neg Bool.false_ne_true]
          dsimp only
          rw [getInode_of_data hslot hi]
      | some size =>
          dsimp only
          rw [Option.isSome_some, Option.getD_some]
          by_cases hkind : (v.inode.owned mode uid gid).vtype = .regular
          · rw [if_neg (not_not.mpr hkind)]
            by_cases hlarge : isizeMax < size
            · refine .inl ⟨⟨⟨v, hv, hkind⟩, hlarge⟩, ?_⟩
              exact setattrStep_panic (truncate_panics hctx' (getInode_of_data hslot hi) hkind hlarge)
            · obtain ⟨g'', hok, hstored⟩ := truncate_tree (now 2) hctx' hslot hi hkind (not_lt.mp hlarge)
              have hbytes : g'.content ino = v.content := congrArg FileNode.content hview
              rw [hview, hbytes] at hstored
              have hnode : g''.fileTree.node ino = some { v with
                  content := Buffer.resize 0 v.content size
                  inode := { v.inode.owned mode uid gid with
                    size := (Buffer.resize 0 v.content size).length, mtime := now 2 0 } } := by
                rw [hstored]
                exact Function.update_self _ _ _
              rw [Buffer.length_resize] at hnode
              refine .inr ⟨fun hout => hlarge hout.2, g'', ?_, hstored⟩
              rw [setattrStep_ok (fun _ => hok) fun hfalse => by cases hfalse]
              dsimp only
              rw [getInode_of_node hslot hnode]
          · rw [if_pos hkind]
            refine .inr ⟨?_, g', ?_, rfl⟩
            · rintro ⟨⟨w, hw, hregular⟩, _⟩
              rw [hv] at hw
              cases hw
              exact hkind hregular
            · exact setattrStep_err (truncate_irregular hctx' (getInode_of_data hslot hi) hkind size)

end Handlers

/-- Every accepted request is served as the files are, or left unanswered because a file outgrows a byte vector. -/
theorem handle_serves {m : Mount} {req : FuseCaller} {now : Nat → Nat → Timestamp} {request : FuseRequest}
    (h : m.graph.Presentable) (hfits : request.Fits) (hacc : Accepted m.graph (request.handle now req m).2.graph) :
    (request.Outgrows m.graph.fileTree ∧ (request.handle now req m).1 = none) ∨
      (¬ request.Outgrows m.graph.fileTree ∧
        Fuse.Answers (request.handle now req m) (m.service.serve now req request)) := by
  have hleft := handle_presentable h hfits hacc
  have hroom := hacc.fits h.inv
  obtain ⟨g, hg⟩ : ∃ g, m.graph.setCapCtx (ctxFromReq req) = g := ⟨_, rfl⟩
  have hcalled : g.Presentable := hg ▸ h.called req
  have hctx : g.capCtx.capId = none := hg ▸ rfl
  have htree := fileTree_called hg
  have hservice : m.service = ⟨g.fileTree, fun fh => m.openFiles[fh]?, m.nextFh⟩ := by
    rw [← htree]
    rfl
  have hshown : ∀ {handled : Fuse.Handled} {request : FuseRequest},
      (∀ parent name mode, request ≠ .create parent name mode) →
        Fuse.Shows m handled (g.fileTree.serve now req m.nextFh request) →
          Fuse.Answers handled (m.service.serve now req request) := by
    intro handled request hcreate hshows
    rw [← htree] at hshows
    exact hshows.answers (FileTree.serve_ne_created hcreate)
  rw [htree]
  cases request with
  | setattr ino mode uid gid size =>
      rcases setattr_shows hctx hg hfits with hpanic | ⟨hsmall, hshows⟩
      · exact .inl hpanic
      · exact .inr ⟨hsmall, hshown (by simp) hshows⟩
  | write ino offset data =>
      rcases write_shows hctx hg hfits with hpanic | ⟨hsmall, hshows⟩
      · exact .inl hpanic
      · exact .inr ⟨hsmall, hshown (by simp) hshows⟩
  | create parent name mode =>
      rw [hservice]
      exact .inr ⟨id, create_answers hcalled hctx hg hroom⟩
  | mkdir parent name mode => exact .inr ⟨id, hshown (by simp) (mkdir_shows hcalled hctx hg hroom)⟩
  | rmdir parent name => exact .inr ⟨id, hshown (by simp) (rmdir_shows hcalled hctx hg)⟩
  | unlink parent name => exact .inr ⟨id, hshown (by simp) (unlink_shows hcalled hctx hg)⟩
  | rename parent name newparent newname =>
      exact .inr ⟨id, hshown (by simp) (rename_shows hcalled hctx hg hleft)⟩
  | link ino newparent newname => exact .inr ⟨id, hshown (by simp) (link_shows hcalled hctx hg hfits hroom)⟩
  | symlink parent name target => exact .inr ⟨id, hshown (by simp) (symlink_shows hcalled hctx hg hroom)⟩
  | setxattr ino name value => exact .inr ⟨id, hshown (by simp) (setxattr_shows hcalled hctx hg hfits hleft)⟩
  | removexattr ino name =>
      exact .inr ⟨id, hshown (by simp) (removexattr_shows hcalled hctx hg hfits hleft)⟩

end SotFs
