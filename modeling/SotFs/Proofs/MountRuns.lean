/-
Module: SotFs.Proofs.MountRuns
Layer: Proofs
Purpose: A mount serves files. Whatever requests the kernel sends from a new mount on, in whatever order, as long
  as no insertion is refused the replies are those of the file service, and the graph goes on showing its tree.
  The daemon leaves a request without a reply exactly when a file would grow past the longest byte vector.
Trusted boundary: none
Main exports: KernelRequest.Fits, Exchange, mountSystem, serviceSystem, mount_serves_files, mount_unanswered_iff
-/
import SotFs.Foundation.Simulation
import SotFs.Proofs.TreeRefinement

namespace SotFs

open Std (ExtTreeMap ExtTreeSet)
open Foundation

/-- What the kernel sends. -/
def KernelRequest.Fits : KernelRequest → Prop
  | .change _ request => request.Fits
  | .ask query => query.Fits
  | .fsync _ => True

/-- A request with its caller and the reply to it. -/
structure Exchange where
  req : FuseCaller
  request : KernelRequest
  reply : KernelReply

/-- A mount from its start on, as long as it answers and no insertion is refused. -/
def mountSystem : LabelledSystem Mount Exchange where
  init m := ∃ now disableProvenance, m = .new now disableProvenance
  step m e m' := e.request.Fits ∧ e.request.handle e.req m = (some e.reply, m') ∧ Accepted m.graph m'.graph

/-- The service that it is meant to give. -/
def serviceSystem : LabelledSystem FileService Exchange where
  init s := ∃ now, s = .new now
  step s e s' := s.Replies e.req e.request e.reply s'

section Runs

variable {m m' : Mount} {req : FuseCaller} {request : KernelRequest}

/-- Nothing is stored beside an inode of an empty filesystem. -/
theorem fileNode_new (now : Timestamp) (i : InodeId) (inode : Inode) :
    (TypeGraph.new now).fileNode i inode = .made inode none := by
  have hcontent : (TypeGraph.new now).content i = [] := ExtTreeMap.getD_empty
  have htarget : (TypeGraph.new now).symlinkTargets[i]? = none := ExtTreeMap.getElem?_empty
  have hattributes : (TypeGraph.new now).attributes i = fun _ => none := by
    funext key
    refine Option.eq_none_iff_forall_ne_some.mpr fun value hvalue => ?_
    obtain ⟨xa, hxa, _⟩ := Option.map_eq_some_iff.mp hvalue
    obtain ⟨x, hx, _⟩ := KeyedRecords.empty.lookup_eq_some.mp hxa
    exact SetIndex.not_mem_members_empty i x hx
  rw [TypeGraph.fileNode, hcontent, htarget, hattributes]
  rfl

/-- An empty filesystem shows the empty tree. -/
theorem fileTree_new (now : Timestamp) : (TypeGraph.new now).fileTree = .new now := by
  have h : Inv (TypeGraph.new now) := Reachable.inv (.new now)
  have hroot : (TypeGraph.new now).dirInode 1 = some 1 := by
    rw [new_dirInode, Function.update_self]
  refine FileTree.ext (h.entry_ext ?_ ?_) ?_ rfl
  · intro c i n hc
    rw [new_dirInode, Function.update_apply] at hc
    split at hc
    · rename_i hroot
      subst hroot
      cases hc
      refine Option.ext fun j => ?_
      rw [h.resolveName_iff, new_entries]
      change _ ↔ Function.update (fun _ => none) ((1 : InodeId), ".") (some 1) (1, n) = some j
      constructor
      · rintro ⟨e, he⟩
        rw [Function.update_apply] at he
        split at he
        · cases he
          exact Function.update_self _ _ _
        · cases he
      · intro hj
        rw [Function.update_apply] at hj
        split at hj
        · rename_i hkey
          cases hkey
          cases hj
          exact ⟨1, Function.update_self _ _ _⟩
        · cases hj
    · cases hc
  · intro i n hno
    have hi : i ≠ 1 := by
      rintro rfl
      exact hno 1 hroot
    change Function.update (fun _ => none) ((1 : InodeId), ".") (some 1) (i, n) = none
    rw [Function.update_of_ne]
    rintro ⟨⟩
    exact hi rfl
  · have hdata : (TypeGraph.new now).inodes.data = Function.update (fun _ => none) 1
        (some { Inode.newDir now 1 .dirDefault 0 0 with linkCount := 1 }) :=
      (emptyNumbered Inode.id (by decide) (by decide)).insert_data (by decide) _
    funext i
    change ((TypeGraph.new now).inodes.data i).map _ =
      Function.update (fun _ => none) (1 : InodeId) (some (FileNode.made { Inode.newDir now 1 .dirDefault 0 0 with
        linkCount := 1 } none)) i
    rw [hdata, Function.update_apply, Function.update_apply]
    split
    · rename_i hi
      subst hi
      rw [Option.map_some, fileNode_new]
    · rfl

/-- One exchange: the reply is one of the service, or none is sent because a file outgrows a byte vector. -/
theorem KernelRequest.handle_replies (h : m.graph.Presentable) (hfits : request.Fits)
    (hacc : Accepted m.graph (request.handle req m).2.graph) :
    (request.handle req m).2.graph.Presentable ∧
      ((request.Outgrows m.graph.fileTree ∧ (request.handle req m).1 = none) ∨
        (¬ request.Outgrows m.graph.fileTree ∧ ∃ reply, (request.handle req m).1 = some reply ∧
          m.service.Replies req request reply (request.handle req m).2.service)) := by
  cases request with
  | change now request =>
      refine ⟨handle_presentable h hfits hacc, ?_⟩
      rcases handle_serves h hfits hacc with ⟨hout, hnone⟩ | ⟨hin, hreply, hafter⟩
      · refine .inl ⟨hout, ?_⟩
        rw [KernelRequest.handle, hnone]
        rfl
      · refine .inr ⟨hin, .changed (m.service.serve now req request).1, ?_, ?_⟩
        · rw [KernelRequest.handle, hreply]
          rfl
        · rw [KernelRequest.handle, hafter]
          exact .change
  | ask query =>
      obtain ⟨reply, hreply, hanswer⟩ := query_answers h req hfits
      refine ⟨?_, .inr ⟨id, .answered reply, ?_, .ask hanswer⟩⟩
      · rw [KernelRequest.handle, query_graph]
        exact h
      · rw [KernelRequest.handle, hreply]
        rfl
  | fsync sidecar =>
      rw [KernelRequest.handle, persistProvLog]
      split
      · exact ⟨h.withSides _ m.graph.capCtx, .inr ⟨id, _, rfl, .fsync⟩⟩
      · exact ⟨h, .inr ⟨id, _, rfl, .fsync⟩⟩

/-- The service simulates the mount. -/
theorem mount_simulated :
    Simulation mountSystem serviceSystem fun m s => m.graph.Presentable ∧ s = m.service where
  init := by
    rintro m ⟨now, disableProvenance, rfl⟩
    have hnew := TypeGraph.Presentable.new now
    refine ⟨.new now, ⟨now, rfl⟩, ?_, ?_⟩
    · cases disableProvenance with
      | true => exact hnew
      | false => exact hnew.withSides (some []) _
    · cases disableProvenance <;> exact FileService.ext (fileTree_new now).symm (funext fun fh => rfl) rfl
  step := by
    rintro m s ⟨req, request, reply⟩ m' ⟨h, rfl⟩ ⟨hfits, hhandle, hacc⟩
    have hleft : m' = (request.handle req m).2 := (congrArg Prod.snd hhandle).symm
    have hreply : (request.handle req m).1 = some reply := congrArg Prod.fst hhandle
    subst hleft
    obtain ⟨h', ⟨_, hnone⟩ | ⟨_, reply', hreply', hreplies⟩⟩ := KernelRequest.handle_replies h hfits hacc
    · rw [hreply] at hnone
      cases hnone
    · rw [hreply] at hreply'
      cases hreply'
      exact ⟨_, hreplies, h', rfl⟩

/-- Whatever is asked of a mount in capacity, it replies as the file service does. -/
theorem mount_serves_files {exchanges : List Exchange} (hrun : mountSystem.Run m exchanges) :
    serviceSystem.Run m.service exchanges := by
  obtain ⟨s, hserved, _, rfl⟩ := mount_simulated.run hrun
  exact hserved

/-- An exchange of a run. -/
theorem mount_step {e : Exchange} (hfits : e.request.Fits) (hreply : (e.request.handle e.req m).1 = some e.reply)
    (hacc : Accepted m.graph (e.request.handle e.req m).2.graph) :
    mountSystem.step m e (e.request.handle e.req m).2 := ⟨hfits, Prod.ext hreply rfl, hacc⟩

/-- A file is created and opened, written past its start and read. -/
theorem mount_serves_files_read : ∃ m : Mount, serviceSystem.Run m.service
    [⟨⟨0, 0⟩, .change (fun _ _ => 0) (.create 1 [97] 0o644),
        .changed (.created (inodeToAttr { Inode.newFile 0 2 ⟨0o644⟩ 0 0 with linkCount := 1 }) 1)⟩,
      ⟨⟨0, 0⟩, .change (fun _ _ => 0) (.write 2 1 [7, 8]), .changed (.written 2)⟩,
      ⟨⟨0, 0⟩, .ask (.read 2 0 10), .answered (.data [0, 7, 8])⟩] := by
  have hstart : mountSystem.Run (.new 0 false) [] := .start ⟨0, false, rfl⟩
  have hcreated := hstart.step (mount_step
    (e := ⟨⟨0, 0⟩, .change (fun _ _ => 0) (.create 1 [97] 0o644),
      .changed (.created (inodeToAttr { Inode.newFile 0 2 ⟨0o644⟩ 0 0 with linkCount := 1 }) 1)⟩)
    trivial (by decide) (by decide))
  have hwritten := hcreated.step (mount_step
    (e := ⟨⟨0, 0⟩, .change (fun _ _ => 0) (.write 2 1 [7, 8]), .changed (.written 2)⟩)
    (by simp [KernelRequest.Fits, FuseRequest.Fits]) (by decide) (by decide))
  have hread := hwritten.step (mount_step
    (e := ⟨⟨0, 0⟩, .ask (.read 2 0 10), .answered (.data [0, 7, 8])⟩)
    (by simp [KernelRequest.Fits, FuseQuery.Fits]) (by decide) (by decide))
  exact ⟨_, mount_serves_files hread⟩

/-- In every state that a mount reaches in capacity, a request that finds room is left without a reply exactly
    when it would make a file longer than a byte vector can be. -/
theorem mount_unanswered_iff {exchanges : List Exchange} (hrun : mountSystem.Run m exchanges)
    (hfits : request.Fits) (hacc : Accepted m.graph (request.handle req m).2.graph) :
    (request.handle req m).1 = none ↔ request.Outgrows m.graph.fileTree := by
  obtain ⟨_, _, h, _⟩ := mount_simulated.run hrun
  obtain ⟨_, ⟨hout, hnone⟩ | ⟨hin, reply, hreply, _⟩⟩ := KernelRequest.handle_replies h hfits hacc
  · exact iff_of_true hnone hout
  · rw [hreply]
    exact iff_of_false (Option.some_ne_none reply) hin

/-- A size of 2 ^ 63 for a new file is not answered. -/
theorem mount_unanswered_iff_large :
    let request := KernelRequest.change (fun _ _ => 0) (.setattr 2 none none none (some (2 ^ 63)))
    let m := (KernelRequest.handle ⟨0, 0⟩ (.new 0 true) (.change (fun _ _ => 0) (.create 1 [97] 0o644))).2
    (request.handle ⟨0, 0⟩ m).1 = none ↔ request.Outgrows m.graph.fileTree := by
  have hstart : mountSystem.Run (.new 0 true) [] := .start ⟨0, true, rfl⟩
  have hcreated := hstart.step (mount_step
    (e := ⟨⟨0, 0⟩, .change (fun _ _ => 0) (.create 1 [97] 0o644),
      .changed (.created (inodeToAttr { Inode.newFile 0 2 ⟨0o644⟩ 0 0 with linkCount := 1 }) 1)⟩)
    trivial (by decide) (by decide))
  exact mount_unanswered_iff hcreated (by simp [KernelRequest.Fits, FuseRequest.Fits]) (by decide)

end Runs

end SotFs
