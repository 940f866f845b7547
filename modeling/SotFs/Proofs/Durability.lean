/-
Module: SotFs.Proofs.Durability
Layer: Proofs
Purpose: What a crash leaves of a mounted filesystem. At any point load returns the graph of the last
  successful save, and that graph is the one that the changing requests answered up to then make of the
  mount, but for the log. fsync replies ok whatever its save did: every request answered before it is in the
  loaded graph exactly as long as each fsync either saves or has nothing new to save.
Trusted boundary: none
Main exports: MountAlike, FuseRequest.handle_alike, Served.Durable, fsync_durable, fsync_not_durable
-/
import SotFs.Core.Fuse
import SotFs.Proofs.Reload

namespace SotFs

open Std (ExtTreeMap ExtTreeSet)
open Relation Foundation

/-! ### Requests do not read the log -/

/-- The graphs are alike and the open files equal. -/
structure MountAlike (L : Likeness) (m m' : Mount) : Prop where
  graph : Alike L m.graph m'.graph
  openFiles : m.openFiles = m'.openFiles
  nextFh : m.nextFh = m'.nextFh

/-- Two handlers answer the same and leave mounts that are alike. -/
def HandledAlike (L : Likeness) (r r' : Fuse.Handled) : Prop := r.1 = r'.1 ∧ MountAlike L r.2 r'.2

namespace MountAlike

variable {L : Likeness} {m m' : Mount}

theorem withGraph (h : MountAlike L m m') {g g' : TypeGraph} (hg : Alike L g g') :
    MountAlike L { m with graph := g } { m' with graph := g' } :=
  ⟨hg, h.openFiles, h.nextFh⟩

theorem respond {α : Type} (h : MountAlike L m m') {r r' : Outcome α × TypeGraph} (hr : EndAlike L r r')
    {onOk : α → TypeGraph → Option FuseReply} {onErr : GraphError → Errno}
    (hok : ∀ a {g g' : TypeGraph}, Alike L g g' → onOk a g = onOk a g') :
    HandledAlike L (Fuse.respond m r onOk onErr) (Fuse.respond m' r' onOk onErr) := by
  obtain ⟨o, g⟩ := r
  obtain ⟨o', g'⟩ := r'
  obtain ⟨hout, hg⟩ := hr
  dsimp only at hout hg
  subst hout
  cases o with
  | ok a => exact ⟨hok a hg, h.withGraph hg⟩
  | err e => exact ⟨rfl, h.withGraph hg⟩
  | panic | diverges => exact ⟨rfl, h.withGraph hg⟩

theorem setattrStep {α : Type} (h : MountAlike L m m') (requested : Bool)
    {op : TypeGraph → Outcome α × TypeGraph}
    (hop : ∀ {g g' : TypeGraph}, Alike L g g' → EndAlike L (op g) (op g')) {next : Mount → Fuse.Handled}
    (hnext : ∀ {m m' : Mount}, MountAlike L m m' → HandledAlike L (next m) (next m')) :
    HandledAlike L (Fuse.setattrStep requested op m next) (Fuse.setattrStep requested op m' next) := by
  unfold Fuse.setattrStep
  cases requested with
  | false => exact hnext h
  | true =>
      obtain ⟨hout, hg⟩ := hop h.graph
      generalize op m.graph = r, op m'.graph = r' at hout hg ⊢
      obtain ⟨o, g⟩ := r
      obtain ⟨o', g'⟩ := r'
      dsimp only at hout hg
      subst hout
      cases o with
      | ok a => exact hnext (h.withGraph hg)
      | err e => exact ⟨rfl, h.withGraph hg⟩
      | panic | diverges => exact ⟨rfl, h.withGraph hg⟩

theorem entryOf {g g' : TypeGraph} (h : Alike L g g') (t : InodeId) :
    Fuse.entryOf g t = Fuse.entryOf g' t := by
  rw [Fuse.entryOf, Fuse.entryOf, h.getInode]

end MountAlike

section Handlers

variable {L : Likeness} {m m' : Mount}

/-- A request is answered alike on mounts that are alike. -/
theorem FuseRequest.handle_alike (h : MountAlike L m m') (now : Nat → Nat → Timestamp) (req : FuseCaller)
    (request : FuseRequest) : HandledAlike L (request.handle now req m) (request.handle now req m') := by
  have hctx := h.graph.setCapCtx (ctxFromReq req)
  cases request with
  | setattr ino mode uid gid size =>
      refine (h.withGraph hctx).setattrStep _ (fun hg => hg.chmod _ _ _) fun h₁ => ?_
      refine h₁.setattrStep _ (fun hg => hg.chown _ _ _ _) fun h₂ => ?_
      refine h₂.setattrStep _ (fun hg => hg.truncate _ _ _) fun {m₃ m₃'} h₃ => ?_
      rw [← h₃.graph.getInode]
      cases m₃.graph.getInode ino with
      | none => exact ⟨rfl, h₃⟩
      | some inode => exact ⟨rfl, h₃⟩
  | mkdir parent name mode =>
      unfold FuseRequest.handle Fuse.mkdir
      dsimp only
      rw [← hctx.dirForInode]
      cases (m.graph.setCapCtx (ctxFromReq req)).dirForInode parent with
      | none => exact ⟨rfl, h.withGraph hctx⟩
      | some d => exact h.respond (hctx.mkdir _ _ _ _ _ _) fun _ _ _ hg => MountAlike.entryOf hg _
  | rmdir parent name =>
      unfold FuseRequest.handle Fuse.rmdir
      dsimp only
      rw [← hctx.dirForInode]
      cases (m.graph.setCapCtx (ctxFromReq req)).dirForInode parent with
      | none => exact ⟨rfl, h.withGraph hctx⟩
      | some d => exact h.respond (hctx.rmdir _ _ _) fun _ _ _ _ => rfl
  | create parent name mode =>
      unfold FuseRequest.handle Fuse.create
      dsimp only
      rw [← hctx.dirForInode]
      cases (m.graph.setCapCtx (ctxFromReq req)).dirForInode parent with
      | none => exact ⟨rfl, h.withGraph hctx⟩
      | some d =>
          obtain ⟨hout, hg⟩ := hctx.createFile (now 0) d name.toStr req.uid req.gid (Fuse.permsOf mode)
          dsimp only
          generalize createFile (now 0) d name.toStr req.uid req.gid (Fuse.permsOf mode)
              (m.graph.setCapCtx (ctxFromReq req)) = r,
            createFile (now 0) d name.toStr req.uid req.gid (Fuse.permsOf mode)
              (m'.graph.setCapCtx (ctxFromReq req)) = r' at hout hg ⊢
          obtain ⟨o, g⟩ := r
          obtain ⟨o', g'⟩ := r'
          dsimp only at hout hg
          subst hout
          cases o with
          | ok t =>
              dsimp only
              rw [hg.getInode, h.nextFh, h.openFiles]
              exact ⟨rfl, hg, rfl, rfl⟩
          | err e => exact ⟨rfl, h.withGraph hg⟩
          | panic | diverges => exact ⟨rfl, h.withGraph hg⟩
  | unlink parent name =>
      unfold FuseRequest.handle Fuse.unlink
      dsimp only
      rw [← hctx.dirForInode]
      cases (m.graph.setCapCtx (ctxFromReq req)).dirForInode parent with
      | none => exact ⟨rfl, h.withGraph hctx⟩
      | some d => exact h.respond (hctx.unlink _ _ _) fun _ _ _ _ => rfl
  | rename parent name newparent newname =>
      unfold FuseRequest.handle Fuse.rename
      dsimp only
      rw [← hctx.dirForInode, ← hctx.dirForInode]
      cases (m.graph.setCapCtx (ctxFromReq req)).dirForInode parent with
      | none => exact ⟨rfl, h.withGraph hctx⟩
      | some d =>
          cases (m.graph.setCapCtx (ctxFromReq req)).dirForInode newparent with
          | none => exact ⟨rfl, h.withGraph hctx⟩
          | some d' => exact h.respond (hctx.rename _ _ _ _ _) fun _ _ _ _ => rfl
  | link ino newparent newname =>
      unfold FuseRequest.handle Fuse.link
      dsimp only
      rw [← hctx.dirForInode]
      cases (m.graph.setCapCtx (ctxFromReq req)).dirForInode newparent with
      | none => exact ⟨rfl, h.withGraph hctx⟩
      | some d => exact h.respond (hctx.link _ _ _ _) fun _ _ _ hg => MountAlike.entryOf hg _
  | write ino offset data =>
      exact h.respond (hctx.writeData _ _ _ _) fun _ _ _ _ => rfl
  | symlink parent name target =>
      unfold FuseRequest.handle Fuse.symlink
      dsimp only
      rw [← hctx.dirForInode]
      cases (m.graph.setCapCtx (ctxFromReq req)).dirForInode parent with
      | none => exact ⟨rfl, h.withGraph hctx⟩
      | some d => exact h.respond (hctx.symlink _ _ _ _ _ _) fun _ _ _ hg => MountAlike.entryOf hg _
  | setxattr ino name value =>
      unfold FuseRequest.handle Fuse.setxattr
      dsimp only
      cases Fuse.splitXattr name.toStr with
      | none => exact ⟨rfl, h⟩
      | some parts =>
          obtain ⟨ns, attr⟩ := parts
          exact h.respond (hctx.setxattr _ _ _ _ _) fun _ _ _ _ => rfl
  | removexattr ino name =>
      unfold FuseRequest.handle Fuse.removexattr
      dsimp only
      cases Fuse.splitXattr name.toStr with
      | none => exact ⟨rfl, h⟩
      | some parts =>
          obtain ⟨ns, attr⟩ := parts
          exact h.respond (hctx.removexattr _ _ _ _) fun _ _ _ _ => rfl

end Handlers

/-! ### What a crash leaves -/

section Durable

variable {Bytes Db : Type} {backend : RedbBackend Bytes Db} {sidecar : Bool}

/-- A crash in this state loses nothing that it should not: load returns the graph of the last successful
    save, and if requests had been answered before the last fsync that replied ok, then that graph is, but
    for the log, what the mount became by some first `k` of the answered requests, these among them. -/
structure Served.Durable (backend : RedbBackend Bytes Db) (origin : Mount) (s : Served Db) : Prop where
  loads : ∃ loaded, backend.load s.db = .ok loaded ∧
    loaded.map TypeGraph.serialize = s.saved.map TypeGraph.serialize
  synced : 0 < s.synced → ∃ k g, s.synced ≤ k ∧ k ≤ s.requests.length ∧ s.saved = some g ∧
    Alike .exact (origin.replay (s.requests.take k)).graph g

/-- Whatever the saves do: load returns the last saved graph, and the notes are true. -/
structure Served.Tracked (backend : RedbBackend Bytes Db) (origin : Mount) (s : Served Db) : Prop where
  loads : backend.load s.db = .ok (s.saved.map TypeGraph.reload)
  memory : MountAlike .exact (origin.replay s.requests) s.mount
  carried_le : s.carried ≤ s.requests.length
  saved : 0 < s.carried → ∃ g, s.saved = some g ∧
    Alike .exact (origin.replay (s.requests.take s.carried)).graph g

theorem Served.Tracked.durable {origin : Mount} {s : Served Db} (h : s.Tracked backend origin)
    (hsynced : s.synced ≤ s.carried) : s.Durable backend origin where
  loads := by
    refine ⟨_, h.loads, ?_⟩
    rw [Option.map_map]
    exact congrArg (fun f => s.saved.map f) (funext TypeGraph.reload_serialize)
  synced hpos := by
    obtain ⟨g, hsaved, halike⟩ := h.saved (hpos.trans_le hsynced)
    exact ⟨s.carried, g, hsynced, h.carried_le, hsaved, halike⟩

/-- A save that succeeds makes the current graph the saved one, one that fails leaves what load returns. -/
theorem Served.Tracked.noteSave (hbackend : backend.Faithful) {origin : Mount} {s : Served Db}
    (h : s.Tracked backend origin) :
    ({ s.noteSave backend with db := SotFs.persist backend s.mount s.db }).Tracked backend origin := by
  unfold Served.noteSave SotFs.persist
  cases hsave : (backend.save s.mount.graph s.db).1 with
  | error e =>
      exact
        { loads := (hbackend.load_failed hsave).trans h.loads
          memory := h.memory
          carried_le := h.carried_le
          saved := h.saved }
  | ok _ =>
      refine
        { loads := hbackend.load_save hsave
          memory := h.memory
          carried_le := le_rfl
          saved := fun _ => ⟨_, rfl, ?_⟩ }
      change Alike .exact (origin.replay (s.requests.take s.requests.length)).graph s.mount.graph
      rw [List.take_length]
      exact h.memory.graph

theorem Served.noteSave_requests (s : Served Db) : (s.noteSave backend).requests = s.requests := by
  unfold Served.noteSave
  split <;> rfl

/-- Draining the log is not seen. -/
theorem MountAlike.drained {L : Likeness} {m m' : Mount} (h : MountAlike L m m') (sidecar : Bool) :
    MountAlike L m (persistProvLog sidecar m') := by
  unfold persistProvLog
  split
  · exact ⟨h.graph.onProvLog _ _, h.openFiles, h.nextFh⟩
  · exact h

theorem ServeStep.tracked (hbackend : backend.Faithful) {allowed : Served Db → Prop} {origin : Mount}
    {s s' : Served Db} (h : s.Tracked backend origin) (hstep : ServeStep backend sidecar allowed s s') :
    s'.Tracked backend origin := by
  cases hstep with
  | mutate r =>
      refine
        { loads := h.loads
          memory := ?_
          carried_le := ?_
          saved := ?_ }
      · have hmemory := (r.request.handle_alike h.memory r.now r.req).2
        change MountAlike .exact (origin.replay (s.requests ++ [r])) _
        rw [Mount.replay, List.foldl_append]
        exact hmemory
      · change s.carried ≤ (s.requests ++ [r]).length
        rw [List.length_append]
        exact h.carried_le.trans (Nat.le_add_right _ _)
      · intro hpos
        obtain ⟨g, hsaved, halike⟩ := h.saved hpos
        refine ⟨g, hsaved, ?_⟩
        change Alike .exact (origin.replay ((s.requests ++ [r]).take s.carried)).graph g
        rw [List.take_append_of_le_length h.carried_le]
        exact halike
  | persist => exact h.noteSave hbackend
  | fsync =>
      have hnoted := h.noteSave hbackend
      refine
        { loads := hnoted.loads
          memory := ?_
          carried_le := hnoted.carried_le
          saved := hnoted.saved }
      change MountAlike .exact (origin.replay (s.noteSave backend).requests) (persistProvLog sidecar s.mount)
      rw [s.noteSave_requests]
      exact h.memory.drained sidecar

/-- An fsync that begins here saves, or has nothing to save: every answered request is in the saved graph
    already. -/
def Served.Syncs (backend : RedbBackend Bytes Db) (s : Served Db) : Prop :=
  (backend.save s.mount.graph s.db).1 = .ok () ∨ s.carried = s.requests.length

/-- Such an fsync, like every other step, leaves nothing synced that is not saved. -/
theorem ServeStep.synced_le {origin : Mount} {s s' : Served Db} (h : s.Tracked backend origin)
    (hsynced : s.synced ≤ s.carried) (hstep : ServeStep backend sidecar (Served.Syncs backend) s s') :
    s'.synced ≤ s'.carried := by
  have hnoted : (s.noteSave backend).synced ≤ (s.noteSave backend).carried := by
    unfold Served.noteSave
    split
    · exact hsynced.trans h.carried_le
    · exact hsynced
  cases hstep with
  | mutate r => exact hsynced
  | persist => exact hnoted
  | fsync hsyncs =>
      change s.requests.length ≤ (s.noteSave backend).carried
      unfold Served.noteSave
      split
      · exact le_rfl
      · rename_i e hfailed
        rcases hsyncs with hok | hnothing
        · rw [hfailed] at hok
          cases hok
        · exact hnothing.ge

/-- An acknowledged fsync is durable as long as each fsync saves or has nothing to save: in every state
    of every sequence of requests, whatever other saves fail, a crash loses nothing it should not. -/
theorem fsync_durable (hbackend : backend.Faithful) {mount : Mount} {db : Db} {saved : Option TypeGraph}
    (hstart : backend.load db = .ok (saved.map TypeGraph.reload)) {s : Served Db}
    (hserves : Serves backend sidecar (Served.Syncs backend) (.start mount db saved) s) :
    s.Durable backend mount := by
  have htracked : s.Tracked backend mount ∧ s.synced ≤ s.carried := by
    induction hserves with
    | refl =>
        exact ⟨⟨hstart, ⟨.refl _, rfl, rfl⟩, le_rfl, fun hpos => absurd hpos (lt_irrefl 0)⟩, le_rfl⟩
    | tail _ hstep ih => exact ⟨hstep.tracked hbackend ih.1, hstep.synced_le ih.1 ih.2⟩
  exact htracked.1.durable htracked.2

end Durable

/-- A file is created and synced on a device that takes every write. -/
theorem fsync_durable_sample :
    (((Served.start ⟨.new 0, ∅, 1⟩ none none).mutate
      ⟨fun _ _ => 0, ⟨0, 0⟩, .create 1 [97] 0o644⟩).fsync memoryBackend false).Durable memoryBackend
        ⟨.new 0, ∅, 1⟩ :=
  have hserves : Serves memoryBackend false (Served.Syncs memoryBackend) (.start ⟨.new 0, ∅, 1⟩ none none) _ :=
    .tail (.tail .refl (.mutate _ (by decide))) (.fsync (.inl rfl))
  fsync_durable memoryBackend_faithful rfl hserves

/-- A device that is full: every write fails, and nothing is stored. -/
def fullBackend : RedbBackend GraphData (Option GraphData) where
  serde := ⟨.ok, .ok⟩
  redb := ⟨fun _ db => (.error "No space left on device", db), .ok⟩

theorem fullBackend_faithful : fullBackend.Faithful where
  codec data := ⟨data, rfl, rfl⟩
  stored _ _ h := by cases h
  atomic _ _ _ _ := rfl

/-- A file is created on a full device and fsync replies ok: load finds nothing after the crash. -/
theorem fsync_not_durable :
    fullBackend.Faithful ∧ ∃ mount s, Mount.withDb fullBackend 0 true none = .ok mount ∧
      Serves fullBackend false (fun _ => True) (.start mount none none) s ∧ 0 < s.synced ∧
      fullBackend.load s.db = .ok none ∧ ¬ s.Durable fullBackend mount := by
  let mount : Mount := ⟨.new 0, ∅, 1⟩
  let r : Acknowledged := ⟨fun _ _ => 0, ⟨0, 0⟩, .create 1 [97] 0o644⟩
  let created : Served (Option GraphData) := (Served.start mount none none).mutate r
  refine ⟨fullBackend_faithful, mount, created.fsync fullBackend false, rfl, ?_, by decide, rfl, ?_⟩
  · exact .tail (.tail .refl (.mutate r (by decide))) (.fsync trivial)
  · intro hdurable
    obtain ⟨k, g, _, _, hsaved, _⟩ := hdurable.synced (by decide)
    cases hsaved

end SotFs
