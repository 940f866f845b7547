/-
Module: SotFs.Proofs.StoredRuns
Layer: Proofs
Purpose: A mount over a store survives crashes. A graph that was loaded differs from the graph that was saved in the
  free lists of its pools only, and no request sees these; it shows the same tree. So along any sequence of
  requests, saves that may fail and new starts the mount is a file service that a crash resets to the tree stored
  last.
Trusted boundary: none
Main exports: TypeGraph.Shown, FuseQuery.handle_alike, storedSystem, durableSystem, stored_mount_serves_files
-/
import SotFs.Spec.DurableService
import SotFs.Proofs.Durability
import SotFs.Proofs.MountRuns

namespace SotFs

open Std (ExtTreeMap ExtTreeSet)
open Foundation

/-! ### Queries of mounts that are alike -/

section Queries

variable {L : Likeness} {g g' : TypeGraph} {m m' : Mount}

theorem Alike.direntAt (h : Alike L g g') (entry : (String × InodeId) × Nat) :
    g.direntAt entry = g'.direntAt entry := by
  rw [TypeGraph.direntAt, TypeGraph.direntAt, h.getInode]

theorem Alike.addEntries (h : Alike L g g') (full : List DirEntry → DirEntry → Bool)
    (entries : List ((String × InodeId) × Nat)) (reply : List DirEntry) :
    g.addEntries full entries reply = g'.addEntries full entries reply := by
  induction entries generalizing reply with
  | nil => rfl
  | cons entry entries ih => rw [TypeGraph.addEntries, TypeGraph.addEntries, h.direntAt, ih]

theorem Alike.readdir (h : Alike L g g') (full : List DirEntry → DirEntry → Bool) (ino : InodeId) (offset : Nat) :
    Fuse.readdir full ino offset g = Fuse.readdir full ino offset g' := by
  unfold Fuse.readdir
  rw [h.dirForInode]
  simp only [h.listDir, h.addEntries]

/-- A query is answered alike on mounts that are alike. -/
theorem FuseQuery.handle_alike (h : MountAlike L m m') (req : FuseCaller) (query : FuseQuery) :
    (query.handle req m).1 = (query.handle req m').1 ∧
      MountAlike L (query.handle req m).2 (query.handle req m').2 := by
  have hg := h.graph
  cases query with
  | lookup parent name =>
      refine ⟨congrArg some ?_, h⟩
      unfold Fuse.lookup
      simp only [hg.dirForInode, hg.resolveName, hg.getInode]
  | getattr ino =>
      refine ⟨congrArg some ?_, h⟩
      unfold Fuse.getattr
      rw [hg.getInode]
  | readdir full ino offset =>
      unfold FuseQuery.handle
      dsimp only
      rw [hg.readdir]
      cases Fuse.readdir full ino offset m'.graph with
      | ok entries => exact ⟨rfl, h⟩
      | error e => exact ⟨rfl, h⟩
  | openFile ino =>
      have hopens : (Fuse.openFile ino m).1 = (Fuse.openFile ino m').1 ∧
          MountAlike L (Fuse.openFile ino m).2 (Fuse.openFile ino m').2 := by
        unfold Fuse.openFile
        rw [hg.containsInode, h.nextFh, h.openFiles]
        split
        · exact ⟨rfl, hg, rfl, rfl⟩
        · exact ⟨rfl, h⟩
      exact ⟨congrArg some hopens.1, hopens.2⟩
  | read ino offset size =>
      refine ⟨?_, h⟩
      change Fuse.read ino offset size m.graph = Fuse.read ino offset size m'.graph
      unfold Fuse.read
      rw [hg.readData]
  | release fh => exact ⟨rfl, hg, congrArg (fun files => files.erase fh) h.openFiles, h.nextFh⟩
  | opendir ino =>
      refine ⟨congrArg some ?_, h⟩
      unfold Fuse.opendir
      rw [hg.dirForInode]
  | releasedir => exact ⟨rfl, h⟩
  | readlink ino =>
      refine ⟨?_, h⟩
      change Fuse.readlink ino m.graph = Fuse.readlink ino m'.graph
      unfold Fuse.readlink
      rw [hg.readlink]
  | statfs =>
      refine ⟨congrArg some ?_, h⟩
      unfold Fuse.statfs
      rw [hg.iterInodes, hg.iterDirs]
  | access ino mask =>
      refine ⟨congrArg some ?_, h⟩
      unfold Fuse.access
      rw [hg.getInode]
  | flush => exact ⟨rfl, h⟩
  | getxattr ino name size =>
      refine ⟨congrArg (Option.map QueryReply.xattr) ?_, h⟩
      unfold Fuse.getxattr
      simp only [hg.getxattr]
  | listxattr ino size =>
      refine ⟨congrArg (Option.map QueryReply.xattr) ?_, h⟩
      unfold Fuse.listxattr
      rw [hg.listxattr]

/-- Graphs that are alike show one tree. -/
theorem Alike.fileTree (h : Alike L g g') : g.fileTree = g'.fileTree := by
  refine FileTree.ext ?_ ?_ h.nextInode
  · funext k
    change (g.dirForInode k.1).bind _ = (g'.dirForInode k.1).bind _
    simp only [h.dirForInode, h.resolveName]
  · funext i
    have hnode : g.fileNode i = g'.fileNode i := by
      funext inode
      unfold TypeGraph.fileNode TypeGraph.content TypeGraph.attributes
      rw [h.fileData, h.symlinkTargets, h.inodeXattrs, h.xattrs]
    change (g.inodes.data i).map _ = (g'.inodes.data i).map _
    rw [L.data h.inodes, hnode]

theorem MountAlike.service (h : MountAlike L m m') : m.service = m'.service :=
  FileService.ext h.graph.fileTree (by rw [Mount.service, Mount.service, h.openFiles]) h.nextFh

end Queries

/-! ### Graphs that came from a store -/

/-- The graph is like one that shows a tree: it may have been loaded. -/
def TypeGraph.Shown (g : TypeGraph) : Prop := ∃ s : TypeGraph, s.Presentable ∧ Alike .stored s g

namespace TypeGraph.Shown

variable {g : TypeGraph}

theorem new (now : Timestamp) : (TypeGraph.new now).Shown := ⟨_, .new now, .new _ now⟩

theorem reload (h : g.Shown) : g.reload.Shown ∧ g.reload.fileTree = g.fileTree := by
  obtain ⟨s, hs, halike⟩ := h
  have hanonymous : (s.setCapCtx .anonymous).Presentable := hs.withSides s.provLog .anonymous
  have hreload : Alike .stored (s.setCapCtx .anonymous) (g.setCapCtx .anonymous).reload :=
    hanonymous.inv.reload_alike (halike.setCapCtx .anonymous) rfl
  exact ⟨⟨_, hanonymous, hreload⟩, hreload.fileTree.symm.trans halike.fileTree⟩

theorem withLog (h : g.Shown) (log : Option ProvenanceLog) : { g with provLog := log }.Shown := by
  obtain ⟨s, hs, halike⟩ := h
  exact ⟨_, hs.withSides log s.capCtx, halike.onProvLog log log⟩

end TypeGraph.Shown

/-- Whether an insertion is refused is the same for graphs that are alike. -/
theorem Accepted.of_alike {L : Likeness} {g g' s s' : TypeGraph} (h : Accepted g g') (hbefore : Alike L s g)
    (hafter : Alike L s' g') : Accepted s s' where
  inode id hlo hhi := by
    rw [hafter.getInode]
    exact h.inode id (hbefore.nextInode ▸ hlo) (hafter.nextInode ▸ hhi)
  dir id hlo hhi := by
    rw [hafter.getDir]
    exact h.dir id (hbefore.nextDir ▸ hlo) (hafter.nextDir ▸ hhi)
  cap id hlo hhi := by
    rw [hafter.getCap]
    exact h.cap id (hbefore.nextCap ▸ hlo) (hafter.nextCap ▸ hhi)
  block id hlo hhi := by
    rw [hafter.getBlock]
    exact h.block id (hbefore.nextBlock ▸ hlo) (hafter.nextBlock ▸ hhi)
  edge id hlo hhi := by
    rw [hafter.getEdge]
    exact h.edge id (hbefore.nextEdge ▸ hlo) (hafter.nextEdge ▸ hhi)

section Shown

variable {m m' : Mount} {req : FuseCaller} {now : Nat → Nat → Timestamp}

/-- A request that is answered is answered as the service does. -/
theorem FuseRequest.handle_shown (h : m.graph.Shown) {request : FuseRequest} (hfits : request.Fits)
    {reply : FuseReply} (hhandle : request.handle now req m = (some reply, m')) (hacc : Accepted m.graph m'.graph) :
    m'.graph.Shown ∧ reply = (m.service.serve now req request).1 ∧
      m'.service = (m.service.serve now req request).2 := by
  obtain ⟨s, hs, halike⟩ := h
  have hmounts : MountAlike .stored { m with graph := s } m := ⟨halike, rfl, rfl⟩
  have hservice : ({ m with graph := s } : Mount).service = m.service := hmounts.service
  obtain ⟨hsame, hafter⟩ := request.handle_alike hmounts now req
  rw [hhandle] at hsame hafter
  have hfound : Accepted s (request.handle now req { m with graph := s }).2.graph :=
    hacc.of_alike halike hafter.graph
  refine ⟨⟨_, handle_presentable hs hfits hfound, hafter.graph⟩, ?_⟩
  obtain ⟨_, hnone⟩ | ⟨_, hreply, hserved⟩ := handle_serves (m := { m with graph := s }) hs hfits hfound
  · rw [hnone] at hsame
    cases hsame
  · rw [hreply, hservice] at hsame
    rw [hservice] at hserved
    exact ⟨(Option.some.inj hsame).symm, hafter.service.symm.trans hserved⟩

/-- So is a query. -/
theorem FuseQuery.handle_shown (h : m.graph.Shown) {query : FuseQuery} (hfits : query.Fits) {reply : QueryReply}
    (hhandle : query.handle req m = (some reply, m')) :
    m'.graph.Shown ∧ m.service.Answers req query reply m'.service := by
  obtain ⟨s, hs, halike⟩ := h
  have hmounts : MountAlike .stored { m with graph := s } m := ⟨halike, rfl, rfl⟩
  obtain ⟨hsame, hafter⟩ := query.handle_alike hmounts req
  rw [hhandle] at hsame hafter
  obtain ⟨answer, hanswer, hservice⟩ := query_answers (m := { m with graph := s }) hs req hfits
  rw [hanswer] at hsame
  cases hsame
  rw [hmounts.service, hafter.service] at hservice
  refine ⟨⟨s, hs, ?_⟩, hservice⟩
  have hgraph : (query.handle req { m with graph := s }).2.graph = s := query_graph ..
  rw [← hgraph]
  exact hafter.graph

end Shown

/-! ### Mounts over a store -/

section Stored

variable {Bytes Db : Type}

/-- One step of a mount and its store. A request is in flight when no crash comes between; one that is not
    answered ends the daemon, and the new start after it is that of a crash before it. -/
inductive StoredStep (backend : RedbBackend Bytes Db) : Mount × Db → StoreEvent → Mount × Db → Prop where
  | changed {m m' : Mount} {db : Db} {req : FuseCaller} {now : Nat → Nat → Timestamp} {request : FuseRequest}
      {reply : FuseReply} (hfits : request.Fits) (hhandle : request.handle now req m = (some reply, m'))
      (hacc : Accepted m.graph m'.graph) : StoredStep backend (m, db) (.changed req now request reply) (m', db)
  | answered {m m' : Mount} {db : Db} {req : FuseCaller} {query : FuseQuery} {reply : QueryReply} (hfits : query.Fits)
      (hhandle : query.handle req m = (some reply, m')) :
      StoredStep backend (m, db) (.answered req query reply) (m', db)
  | synced {m m' : Mount} {db db' : Db} (sidecar : Bool) {stored : Bool}
      (hstored : stored = true ↔ (backend.save m.graph db).1 = .ok ())
      (hfsync : fsync backend sidecar m db = (.ok, m', db')) : StoredStep backend (m, db) (.synced stored) (m', db')
  | saved {m : Mount} {db : Db} {stored : Bool} (hstored : stored = true ↔ (backend.save m.graph db).1 = .ok ()) :
      StoredStep backend (m, db) (.saved stored) (m, persist backend m db)
  | restarted {m m' : Mount} {db : Db} (now : Timestamp) (disableProvenance : Bool)
      (hmount : Mount.withDb backend now disableProvenance db = .ok m') :
      StoredStep backend (m, db) .restarted (m', db)

/-- A mount from the first start over a store that holds nothing. -/
def storedSystem (backend : RedbBackend Bytes Db) : LabelledSystem (Mount × Db) StoreEvent where
  init p := backend.load p.2 = .ok none ∧ ∃ now disableProvenance,
    Mount.withDb backend now disableProvenance p.2 = .ok p.1
  step := StoredStep backend

/-- The service that it is meant to give. -/
def durableSystem : LabelledSystem DurableService StoreEvent where
  init s := ∃ now, s = ⟨.new now, none⟩
  step := DurableService.Step

/-- The tree that the store holds. -/
def RedbBackend.storedTree (backend : RedbBackend Bytes Db) (db : Db) : Option FileTree :=
  match backend.load db with
  | .ok stored => stored.map TypeGraph.fileTree
  | .error _ => none

/-- The mount shows a tree, and what the store holds is a graph that did when it was saved. -/
structure Stores (backend : RedbBackend Bytes Db) (p : Mount × Db) (s : DurableService) : Prop where
  shown : p.1.graph.Shown
  service : s.service = p.1.service
  stored : ∃ saved : Option TypeGraph, backend.load p.2 = .ok (saved.map TypeGraph.reload) ∧
    s.saved = saved.map TypeGraph.fileTree ∧ ∀ g, saved = some g → g.Shown

variable {backend : RedbBackend Bytes Db} {m m' : Mount} {db : Db} {s : DurableService}

/-- A save makes the tree of the mount the stored one, or leaves the store as it was. -/
theorem Stores.save (hbackend : backend.Faithful) (h : Stores backend (m, db) s) {stored : Bool}
    (hstored : stored = true ↔ (backend.save m.graph db).1 = .ok ()) :
    Stores backend (m, persist backend m db) (s.save stored) where
  shown := h.shown
  service := h.service
  stored := by
    cases hsave : (backend.save m.graph db).1 with
    | ok _ =>
        obtain rfl : stored = true := hstored.mpr hsave
        refine ⟨some m.graph, hbackend.load_save hsave, ?_, ?_⟩
        · change some s.service.tree = some m.graph.fileTree
          rw [h.service]
          rfl
        · rintro g ⟨⟩
          exact h.shown
    | error e =>
        obtain rfl : stored = false := by
          rw [hsave] at hstored
          cases stored with
          | false => rfl
          | true => cases hstored.mp rfl
        obtain ⟨saved, hload, htree, hshown⟩ := h.stored
        exact ⟨saved, (hbackend.load_failed hsave).trans hload, htree, hshown⟩

/-- A start serves the tree that is stored, or the empty one. -/
theorem Stores.restart (h : Stores backend (m, db) s) {now : Timestamp} {disableProvenance : Bool}
    (hmount : Mount.withDb backend now disableProvenance db = .ok m') :
    Stores backend (m', db) { s with service := DurableService.reopen (s.saved.getD (.new now)) } := by
  obtain ⟨saved, hload, htree, hshown⟩ := h.stored
  have hgraph : ∃ g : TypeGraph, g.Shown ∧ g.fileTree = s.saved.getD (.new now) ∧
      m' = ⟨if disableProvenance then g else g.enableProvLog, ∅, 1⟩ := by
    unfold Mount.withDb at hmount
    rw [hload] at hmount
    cases hmount
    cases saved with
    | none =>
        refine ⟨.new now, .new now, ?_, rfl⟩
        rw [htree]
        exact fileTree_new now
    | some g =>
        obtain ⟨hreload, hsame⟩ := (hshown g rfl).reload
        refine ⟨g.reload, hreload, ?_, rfl⟩
        rw [htree]
        exact hsame
  obtain ⟨g, hg, hserved, rfl⟩ := hgraph
  refine ⟨?_, ?_, saved, hload, htree, hshown⟩
  · cases disableProvenance with
    | true => exact hg
    | false => exact hg.withLog (some [])
  · refine FileService.ext ?_ ?_ rfl
    · cases disableProvenance <;> exact hserved.symm
    · funext fh
      exact ExtTreeMap.getElem?_empty.symm

/-- The durable service simulates the mount over its store. -/
theorem stored_simulated (hbackend : backend.Faithful) :
    Simulation (storedSystem backend) durableSystem (Stores backend) where
  init := by
    rintro ⟨m, db⟩ ⟨hempty, now, disableProvenance, hmount⟩
    have hnew : Stores backend (⟨.new now, ∅, 1⟩, db) ⟨.new now, none⟩ :=
      { shown := .new now
        service := FileService.ext (fileTree_new now).symm (funext fun fh => ExtTreeMap.getElem?_empty.symm) rfl
        stored := ⟨none, hempty, rfl, by rintro g ⟨⟩⟩ }
    exact ⟨_, ⟨now, rfl⟩, hnew.restart hmount⟩
  step := by
    rintro ⟨m, db⟩ s e ⟨m', db'⟩ h hstep
    cases hstep with
    | changed hfits hhandle hacc =>
        obtain ⟨hshown, hreply, hservice⟩ := FuseRequest.handle_shown h.shown hfits hhandle hacc
        rw [← h.service] at hreply hservice
        subst hreply
        exact ⟨_, .changed, hshown, hservice.symm, h.stored⟩
    | answered hfits hhandle =>
        obtain ⟨hshown, hanswers⟩ := FuseQuery.handle_shown h.shown hfits hhandle
        rw [← h.service] at hanswers
        exact ⟨_, .answered hanswers, hshown, rfl, h.stored⟩
    | synced sidecar hstored hfsync =>
        have hsaved := h.save hbackend hstored
        cases hfsync
        refine ⟨_, .synced, ?_, ?_, hsaved.stored⟩
        · unfold persistProvLog
          split
          · exact h.shown.withLog _
          · exact h.shown
        · rw [persistProvLog]
          split <;> exact h.service
    | saved hstored => exact ⟨_, .saved, h.save hbackend hstored⟩
    | restarted now disableProvenance hmount => exact ⟨_, .restarted now, h.restart hmount⟩

/-- Whatever is asked of a mount over a store in capacity, whichever saves fail and whenever it crashes, it serves
    as the file service that every crash resets to the tree stored last. -/
theorem stored_mount_serves_files (hbackend : backend.Faithful) {events : List StoreEvent}
    (hrun : (storedSystem backend).Run (m, db) events) :
    durableSystem.Run ⟨m.service, backend.storedTree db⟩ events := by
  obtain ⟨s, hserved, hstores⟩ := (stored_simulated hbackend).run hrun
  obtain ⟨saved, hload, htree, hshown⟩ := hstores.stored
  have hstored : backend.storedTree db = s.saved := by
    unfold RedbBackend.storedTree
    rw [hload, htree]
    cases saved with
    | none => rfl
    | some g => exact congrArg some (hshown g rfl).reload.2
  rw [hstored, ← hstores.service]
  exact hserved

end Stored

/-- A request of a run, answered as computed. -/
theorem stored_changed {m : Mount} {db : Option GraphData} {events : List StoreEvent}
    (hrun : (storedSystem memoryBackend).Run (m, db) events) (request : FuseRequest) (reply : FuseReply)
    (hfits : request.Fits) (hreply : (request.handle (fun _ _ => 0) ⟨0, 0⟩ m).1 = some reply)
    (hacc : Accepted m.graph (request.handle (fun _ _ => 0) ⟨0, 0⟩ m).2.graph) :
    (storedSystem memoryBackend).Run ((request.handle (fun _ _ => 0) ⟨0, 0⟩ m).2, db)
      (events ++ [.changed ⟨0, 0⟩ (fun _ _ => 0) request reply]) :=
  hrun.step (.changed hfits (Prod.ext hreply rfl) hacc)

theorem stored_answered {m : Mount} {db : Option GraphData} {events : List StoreEvent}
    (hrun : (storedSystem memoryBackend).Run (m, db) events) (query : FuseQuery) (reply : QueryReply)
    (hfits : query.Fits) (hreply : (query.handle ⟨0, 0⟩ m).1 = some reply) :
    (storedSystem memoryBackend).Run ((query.handle ⟨0, 0⟩ m).2, db) (events ++ [.answered ⟨0, 0⟩ query reply]) :=
  hrun.step (.answered hfits (Prod.ext hreply rfl))

/-- The first of two files is synced. After a crash it is there, the second is not. -/
theorem stored_mount_serves_files_crash : ∃ (m : Mount) (db : Option GraphData),
    durableSystem.Run ⟨m.service, memoryBackend.storedTree db⟩
      [.changed ⟨0, 0⟩ (fun _ _ => 0) (.create 1 [97] 0o644)
          (.created (inodeToAttr { Inode.newFile 0 2 ⟨0o644⟩ 0 0 with linkCount := 1 }) 1),
        .synced true,
        .changed ⟨0, 0⟩ (fun _ _ => 0) (.create 1 [98] 0o644)
          (.created (inodeToAttr { Inode.newFile 0 3 ⟨0o644⟩ 0 0 with linkCount := 1 }) 2),
        .restarted,
        .answered ⟨0, 0⟩ (.lookup 1 [97])
          (.entry (inodeToAttr { Inode.newFile 0 2 ⟨0o644⟩ 0 0 with linkCount := 1 })),
        .answered ⟨0, 0⟩ (.lookup 1 [98]) (.error .ENOENT)] := by
  have hstart : (storedSystem memoryBackend).Run (⟨.new 0, ∅, 1⟩, none) [] := .start ⟨rfl, 0, true, rfl⟩
  have hfirst := stored_changed hstart (.create 1 [97] 0o644)
    (.created (inodeToAttr { Inode.newFile 0 2 ⟨0o644⟩ 0 0 with linkCount := 1 }) 1) trivial (by decide) (by decide)
  have hsynced := hfirst.step (.synced false (iff_of_true rfl rfl) rfl)
  have hsecond := stored_changed hsynced (.create 1 [98] 0o644)
    (.created (inodeToAttr { Inode.newFile 0 3 ⟨0o644⟩ 0 0 with linkCount := 1 }) 2) trivial (by decide) (by decide)
  have hrestarted := hsecond.step (.restarted 0 true rfl)
  have hfound := stored_answered hrestarted (.lookup 1 [97])
    (.entry (inodeToAttr { Inode.newFile 0 2 ⟨0o644⟩ 0 0 with linkCount := 1 })) trivial (by decide)
  have hmissing := stored_answered hfound (.lookup 1 [98]) (.error .ENOENT) trivial (by decide)
  exact ⟨_, _, stored_mount_serves_files memoryBackend_faithful hmissing⟩

end SotFs
