/-
Module: SotFs.Proofs.AuditTrail
Layer: Proofs
Purpose: What the provenance log records. With the log enabled a call that succeeds and changes what is
  saved to disk should append an entry under the current capability context, about the inode it changed,
  and a call that returns an error should append nothing. Three calls succeed without an entry: set_quota,
  write_block and the update of an existing attribute; and a rename whose new edge finds no room logs an
  inode that is not there. Along all other sequences of calls the trail is complete, with the pools full or
  not; and along every sequence, the log changes nothing but itself.
Trusted boundary: none
Main exports: Op.affected, Audited, Op.Unrecorded, Op.audited, EveryCall, TypeGraph.serveAll, audit_trail
-/
import SotFs.Proofs.FiledRuns
import SotFs.Proofs.Agreement
import SotFs.Core.Storage

namespace SotFs

open Std (ExtTreeMap ExtTreeSet)
open Foundation

/-! ### What should be recorded -/

/-- The inode that a call is about: the one it makes, the one its name leads to, or the one it is given. -/
def Op.affected (g : TypeGraph) : Op → Option InodeId
  | .createFile .. | .mkdir .. | .symlink .. => some g.nextInode
  | .rmdir d n => g.resolveName d n
  | .unlink d n => ((g.dirEntries d).find? fun entry => entry.2.2 = n).map fun entry => entry.2.1
  | .rename sd sn _ _ => g.resolveName sd sn
  | .link _ _ t | .writeBlock t .. | .writeData t .. | .truncate t _ | .chmod t _ | .chown t ..
  | .setxattr t .. | .removexattr t .. | .setacl t _ => some t
  | .setQuota d .. => (g.getDir d).map Directory.inodeId

/-- A call that ends as `r` on `g` is audited: the log has at most grown; if the call succeeded and changed
    what is saved to disk, an entry about the inode under the context of the call is among the new ones; if
    it returned an error, there are no new ones. -/
structure Audited {α : Type} (g : TypeGraph) (inode : Option InodeId) (r : Outcome α × TypeGraph) : Prop where
  grows : ∃ added, r.2.provLog = g.provLog.map (· ++ added)
  ok : ∀ a, r.1 = .ok a → r.2.serialize ≠ g.serialize → ∃ log added entry,
    g.provLog = some log ∧ r.2.provLog = some (log ++ added) ∧ entry ∈ added ∧
      inode = some entry.inodeId ∧ entry.capId = g.capCtx.capId ∧ entry.domainId = g.capCtx.domainId
  err : ∀ e, r.1 = .err e → r.2.provLog = g.provLog

/-- The call is audited on this graph. -/
def Op.Audited (now : Nat → Timestamp) (g : TypeGraph) (op : Op) : Prop :=
  SotFs.Audited g (op.affected g) (op.apply now g)

/-- The calls that succeed without an entry about their inode: a quota is set, a block is attached, an
    attribute that exists takes another value; and a rename that passes its checks and moves its inode to
    another directory while the edge pool is full, or after ids have come to alias slots. -/
def Op.Unrecorded (g : TypeGraph) : Op → Prop
  | .setQuota d il bl =>
      g.requireCap Rights.grant = .ok () ∧ g.containsDir d = true ∧ g.quotas[d]? ≠ some (.new il bl)
  | .writeBlock t .. => g.requireCap Rights.write = .ok () ∧ g.containsInode t = true
  | .setxattr t ns name value =>
      g.requireCap Rights.write = .ok () ∧ g.containsInode t = true ∧ value.length ≤ 65536 ∧
        ∃ a xa, g.findXattr t ns name = some a ∧ g.xattrs[a]? = some xa ∧ xa.value ≠ value
  | .rename sd sn dd dn =>
      g.requireCap Rights.write = .ok () ∧ UserName sn ∧ UserName dn ∧ (sd, sn) ≠ (dd, dn) ∧
        ∃ t, g.resolveName sd sn = some t ∧
          (2 ^ 32 < g.nextEdge ∨
            (sd ≠ dd ∧ EDGE_CAPACITY ≤ g.nextEdge ∧ g.wouldCycle t dd = false ∧ g.CanReplace dd dn))
  | _ => False

namespace Audited

variable {α β : Type} {g g' : TypeGraph} {inode : Option InodeId} {r : Outcome α × TypeGraph}

/-- A change that is audited shows in the log. -/
theorem shows (h : Audited g inode r) {a : α} (hok : r.1 = .ok a) (hchanged : r.2.serialize ≠ g.serialize) :
    r.2.provLog ≠ g.provLog := by
  obtain ⟨log, added, entry, hlog, hgrown, hmem, _⟩ := h.ok a hok hchanged
  rw [hlog, hgrown]
  intro hsame
  rw [List.append_right_eq_self.mp (Option.some.inj hsame)] at hmem
  exact absurd hmem List.not_mem_nil

/-- The value that a call returns does not matter. -/
theorem map (h : Audited g inode r) (f : α → β) : Audited g inode (r.map (Outcome.map f) id) := by
  obtain ⟨o, g₁⟩ := r
  refine ⟨h.grows, ?_, ?_⟩
  · intro b hok
    cases o with
    | ok a => exact h.ok a rfl
    | _ => cases hok
  · intro e herr
    cases o with
    | err e' => exact h.err e' rfl
    | _ => cases herr

/-- A call that fails and leaves the graph as it is. -/
theorem failed (h : ∃ o, o.Failed ∧ r = (o, g)) : Audited g inode r := by
  obtain ⟨o, hfail, rfl⟩ := h
  exact ⟨log_refl _, fun a hok => absurd hok (hfail a), fun _ _ => rfl⟩

/-- A call that does not return and has not logged. -/
theorem stuck {o : Outcome α} (hok : ∀ a, o ≠ .ok a) (hsame : g'.provLog = g.provLog) :
    Audited g inode (o, g') :=
  ⟨hsame ▸ log_refl g'.provLog, fun a ha => absurd ha (hok a), fun _ _ => hsame⟩

/-- A call that succeeds without changing anything that is saved. -/
theorem same (a : α) (h : g'.serialize = g.serialize) (hsame : g'.provLog = g.provLog) :
    Audited g inode (.ok a, g') := by
  refine ⟨hsame ▸ log_refl g'.provLog, ?_, ?_⟩
  · intro _ _ hchanged
    exact absurd h hchanged
  · intro e herr
    cases herr

/-- A call that succeeds and ends with an entry about its inode, perhaps after others. -/
theorem extended {log : ProvenanceLog} {t : InodeId} (hlog : g.provLog = some log)
    (hinode : inode = some t) (hctx : g'.capCtx = g.capCtx)
    (hgrown : ∃ added, g'.provLog = g.provLog.map (· ++ added)) (now : Timestamp) (op : ProvOp)
    (detail : String) (a : α) : Audited g inode (.ok a, g'.recordProv now op t detail) := by
  refine ⟨recordProv_log hgrown now op t detail, ?_, ?_⟩
  · intro _ _ _
    obtain ⟨added, hgrown⟩ := hgrown
    let entry : ProvenanceEntry := ⟨now, op, t, g'.capCtx.capId, g'.capCtx.domainId, detail⟩
    refine ⟨log, added ++ [entry], entry, hlog, ?_, ?_, hinode, ?_, ?_⟩
    · change g'.provLog.map _ = _
      rw [hgrown, hlog, Option.map_some, Option.map_some, List.append_assoc]
    · exact List.mem_append_right added (List.mem_singleton_self entry)
    · exact congrArg CapContext.capId hctx
    · exact congrArg CapContext.domainId hctx
  · intro e herr
    cases herr

/-- A call that succeeds and logs one entry, about its inode. -/
theorem recorded (g' : TypeGraph) {log : ProvenanceLog} {t : InodeId} (hlog : g.provLog = some log)
    (hinode : inode = some t) (hctx : g'.capCtx = g.capCtx) (hsame : g'.provLog = g.provLog)
    (now : Timestamp) (op : ProvOp) (detail : String) (a : α) :
    Audited g inode (.ok a, g'.recordProv now op t detail) :=
  extended hlog hinode hctx (hsame ▸ log_refl g'.provLog) now op detail a

/-- A call that ends by charging quotas and logging. -/
theorem settled {log : ProvenanceLog} {t : InodeId} (hlog : g.provLog = some log)
    (hinode : inode = some t) (hctx : g'.capCtx = g.capCtx) (hsame : g'.provLog = g.provLog) (d : DirId)
    (delta : Int) (now : Timestamp) (op : ProvOp) (detail : String) (a : α) :
    Audited g inode (g'.settle d delta now op t detail a) := by
  rcases settle_cases g' d delta now op t detail a with heq | ⟨quotas, heq⟩
  · rw [heq]
    exact stuck Outcome.failed_diverges hsame
  · rw [heq]
    exact recorded { g' with quotas := quotas } hlog hinode hctx hsame now op detail a

end Audited

/-! ### The calls -/

section Calls

variable {g : TypeGraph} {log : ProvenanceLog} {now : Nat → Timestamp}

/-- A rename without the right, or from or to "." or "..", fails at once. -/
theorem rename_refused {sd dd : DirId} {sn dn : String}
    (h : ¬ (g.requireCap Rights.write = .ok () ∧ UserName sn ∧ UserName dn)) :
    ∃ o, o.Failed ∧ rename now sd sn dd dn g = (o, g) := by
  unfold rename
  cases hcap : g.requireCap Rights.write with
  | error e => exact ⟨_, Outcome.failed_err _, rfl⟩
  | ok _ =>
      dsimp only
      rw [if_pos]
      · exact ⟨_, Outcome.failed_err _, rfl⟩
      · by_contra hnames
        simp only [not_or] at hnames
        obtain ⟨hs₁, hs₂, hd₁, hd₂⟩ := hnames
        exact h ⟨hcap, ⟨hs₁, hs₂⟩, hd₁, hd₂⟩

/-- A rename of a name that is not there fails at once. -/
theorem rename_unresolved {sd dd : DirId} {sn dn : String} (h : g.resolveName sd sn = none) :
    ∃ o, o.Failed ∧ rename now sd sn dd dn g = (o, g) := by
  unfold rename
  split
  · exact ⟨_, Outcome.failed_err _, rfl⟩
  · split
    · exact ⟨_, Outcome.failed_err _, rfl⟩
    · by_cases hdir : sd = dd
      · subst hdir
        rw [if_pos rfl, renameSameDir, h]
        exact ⟨_, Outcome.failed_err _, rfl⟩
      · rw [if_neg hdir, renameCrossDir, h]
        exact ⟨_, Outcome.failed_err _, rfl⟩

/-- A rename of a name to itself fails at once or logs. -/
theorem rename_idle (now : Nat → Timestamp) {d : DirId} {n : String} {t : InodeId} (h : g.resolveName d n = some t) :
    (∃ o, o.Failed ∧ rename now d n d n g = (o, g)) ∨
      rename now d n d n g = (.ok (), g.recordProv (now 1) .rename t n) := by
  unfold rename
  split
  · exact .inl ⟨_, Outcome.failed_err _, rfl⟩
  · split
    · exact .inl ⟨_, Outcome.failed_err _, rfl⟩
    · rw [if_pos rfl, renameSameDir, h]
      dsimp only
      rw [if_pos rfl]
      dsimp only
      rw [h]
      exact .inr rfl

/-- A rename that is not refused room is recorded under the inode that it moved. -/
theorem rename_audited (hfiled : g.NamesFiled) (hlog : g.provLog = some log) {sd dd : DirId} {sn dn : String}
    (hrecorded : ¬ (Op.rename sd sn dd dn).Unrecorded g) :
    Audited g (g.resolveName sd sn) (rename now sd sn dd dn g) := by
  by_cases hle : g.nextEdge ≤ 2 ^ 32
  · rcases (hfiled hle).rename_spec now sd sn dd dn with
      hfail | ⟨hcap, hsn, hdn, t, g', ht, hchecks, hmoved, heq⟩
    · exact .stuck hfail.failed hfail.log
    · have hroom : sd = dd ∨ g.nextEdge < EDGE_CAPACITY := by
        by_contra hfull
        obtain ⟨hne, hfull⟩ := not_or.mp hfull
        obtain ⟨hcycle, hreplace⟩ := hchecks hne
        refine hrecorded ⟨hcap, hsn, hdn, fun hkey => hne (congrArg Prod.fst hkey), t, ht, .inr ?_⟩
        exact ⟨hne, not_lt.mp hfull, hcycle, hreplace⟩
      rw [heq, hmoved.resolves hroom]
      exact .extended hlog ht hmoved.capCtx hmoved.log _ _ _ _
  · -- ids alias slots: only a rename that has nothing to do is left
    cases ht : g.resolveName sd sn with
    | none => exact .failed (rename_unresolved ht)
    | some t =>
        by_cases hkey : (sd, sn) = (dd, dn)
        · cases hkey
          rcases rename_idle now ht with hfail | heq
          · exact .failed hfail
          · rw [heq]
            exact .recorded _ hlog rfl (by rfl) (by rfl) _ _ _ _
        · refine .failed (rename_refused ?_)
          rintro ⟨hcap, hsn, hdn⟩
          exact hrecorded ⟨hcap, hsn, hdn, hkey, t, ht, .inl (not_le.mp hle)⟩

/-- Every recorded call is audited, on every graph whose names are filed and whose log is enabled. -/
theorem Op.audited (hfiled : g.NamesFiled) (hlog : g.provLog = some log) {op : Op}
    (hrecorded : ¬ op.Unrecorded g) : op.Audited now g := by
  unfold Op.Audited
  cases op with
  | createFile d n u gr p =>
      rw [Op.apply]
      refine Audited.map ?_ _
      rcases createFile_cases now d n u gr p g with
        hfail | ⟨_, _, _, _, _, heq⟩
      · exact .failed hfail
      · rw [heq]
        exact .settled hlog rfl (by rfl) (by rfl) _ _ _ _ _ _
  | mkdir d n u gr p =>
      rw [Op.apply]
      refine Audited.map ?_ _
      rcases mkdir_cases now d n u gr p g with
        hfail | ⟨_, _, _, _, parent, _, heq⟩
      · exact .failed hfail
      · rw [heq]
        exact .settled hlog rfl (by rfl) (by rfl) _ _ _ _ _ _
  | symlink d n target u gr =>
      rw [Op.apply]
      refine Audited.map ?_ _
      rcases symlink_cases now d n target u gr g with
        hfail | ⟨_, _, _, _, _, heq⟩
      · exact .failed hfail
      · rw [heq]
        exact .settled hlog rfl (by rfl) (by rfl) _ _ _ _ _ _
  | rmdir d n =>
      rw [Op.apply]
      refine Audited.map ?_ _
      rcases rmdir_cases now d n g with
        hfail | ⟨_, _, ti, td, _, hti, _, _, _, _, heq⟩
      · exact .failed hfail
      · obtain ⟨_, _, _, _, _, _, hframe⟩ := dropDir_frame (g := g) d n ti td
        rw [heq]
        exact .settled hlog hti (by rw [hframe]) (by rw [hframe]) _ _ _ _ _ _
  | link d n t =>
      rw [Op.apply]
      refine Audited.map ?_ _
      rcases link_cases now d n t g with
        hfail | ⟨_, _, _, _, _, _, _, heq⟩
      · exact .failed hfail
      · rw [heq]
        exact .recorded _ hlog rfl (by rfl) (by rfl) _ _ _ _
  | unlink d n =>
      rw [Op.apply]
      refine Audited.map ?_ _
      rcases unlink_cases now d n g with
        hfail | ⟨_, _, _, e, t, m, _, hfind, _, _, hcase⟩
      · exact .failed hfail
      · have hinode : (Op.unlink d n).affected g = some t := by
          rw [Op.affected, hfind]
          rfl
        rcases hcase with ⟨_, heq⟩ | ⟨_, heq⟩
        · obtain ⟨_, _, _, _, hframe⟩ := dropName_frame (g := g) e d t
          rw [heq]
          exact .recorded _ hlog hinode (by rw [hframe]) (by rw [hframe]) _ _ _ _
        · obtain ⟨_, _, _, _, _, hframe⟩ := dropLastName_frame (g := g) e d t
          rw [heq]
          exact .settled hlog hinode (by rw [hframe]) (by rw [hframe]) _ _ _ _ _ _
  | rename sd sn dd dn => exact (rename_audited hfiled hlog hrecorded).map _
  | writeBlock t offset start count =>
      rw [Op.apply]
      refine Audited.map ?_ _
      rcases writeBlock_cases t offset start count g with hfail | ⟨hcap, hlive, _⟩
      · exact .failed hfail
      · exact absurd ⟨hcap, hlive⟩ hrecorded
  | writeData t offset data =>
      rw [Op.apply]
      refine Audited.map ?_ _
      rcases writeData_cases now t offset data g with
        ⟨e, heq⟩ | ⟨_, _, _, ⟨buf, heq⟩ | ⟨buf, heq⟩⟩
      · exact .failed ⟨_, Outcome.failed_err e, heq⟩
      · rw [heq]
        exact .stuck Outcome.failed_panic rfl
      · rw [heq]
        exact .recorded _ hlog rfl (by rfl) (by rfl) _ _ _ _
  | truncate t newSize =>
      rw [Op.apply]
      refine Audited.map ?_ _
      rcases truncate_cases now t newSize g with
        ⟨e, heq⟩ | ⟨_, _, _, ⟨buf, heq⟩ | heq⟩
      · exact .failed ⟨_, Outcome.failed_err e, heq⟩
      · rw [heq]
        exact .stuck Outcome.failed_panic rfl
      · rw [heq]
        exact .recorded _ hlog rfl (by rfl) (by rfl) _ _ _ _
  | chmod t mode =>
      rw [Op.apply]
      refine Audited.map ?_ _
      rcases chmod_cases now t mode g with hfail | ⟨_, heq⟩
      · exact .failed hfail
      · rw [heq]
        exact .recorded _ hlog rfl (by rfl) (by rfl) _ _ _ _
  | chown t u gr =>
      rw [Op.apply]
      refine Audited.map ?_ _
      rcases chown_cases now t u gr g with hfail | ⟨_, heq⟩
      · exact .failed hfail
      · rw [heq]
        exact .recorded _ hlog rfl (by rfl) (by rfl) _ _ _ _
  | setxattr t ns name value =>
      rw [Op.apply]
      refine Audited.map ?_ _
      rcases setxattr_cases now t ns name value g with
        hfail | ⟨hcap, hlive, hsize, ⟨a, ha, heq⟩ | ⟨_, heq⟩⟩
      · exact .failed hfail
      · -- an update that is not recorded writes the value that is there
        have hsame : (g.xattrs.modify a fun xa => { xa with value := value }) = g.xattrs := by
          refine ExtTreeMap.ext_getElem? fun x => ?_
          rw [ExtTreeMap.getElem?_modify]
          split
          · rename_i hcmp
            rw [← Std.compare_eq_iff_eq.mp hcmp]
            cases hxa : g.xattrs[a]? with
            | none => rfl
            | some xa =>
                by_cases hvalue : xa.value = value
                · exact congrArg some (by rw [← hvalue])
                · exact absurd ⟨hcap, hlive, hsize, a, xa, ha, hxa, hvalue⟩ hrecorded
          · rfl
        rw [heq, hsame]
        exact .same a rfl rfl
      · rw [heq]
        exact .recorded _ hlog rfl (by rfl) (by rfl) _ _ _ _
  | removexattr t ns name =>
      rw [Op.apply]
      refine Audited.map ?_ _
      rcases removexattr_cases now t ns name g with
        hfail | ⟨_, _, a, _, heq⟩
      · exact .failed hfail
      · obtain ⟨_, _, hframe⟩ := dropXattr_frame (g := g) t a
        rw [heq]
        exact .recorded _ hlog rfl (by rw [hframe]) (by rw [hframe]) _ _ _ _
  | setacl t entries =>
      rw [Op.apply]
      refine Audited.map ?_ _
      rcases setacl_cases now t entries g with hfail | ⟨_, _, heq⟩
      · exact .failed hfail
      · obtain ⟨_, _, _, _, _, _, hgranted⟩ := replaceGrants_frame (g := g) t entries
        rw [heq]
        exact .recorded _ hlog rfl (by rw [hgranted]) (by rw [hgranted]) _ _ _ _
  | setQuota d il bl =>
      rw [Op.apply]
      refine Audited.map ?_ _
      rcases setQuota_cases d il bl g with hfail | ⟨hcap, hdir, heq⟩
      · exact .failed hfail
      · -- a quota that is not recorded is the one that is there
        have hquota : g.quotas[d]? = some (.new il bl) := by
          by_contra hother
          exact hrecorded ⟨hcap, hdir, hother⟩
        have hsame : g.quotas.insert d (.new il bl) = g.quotas := by
          refine ExtTreeMap.ext_getElem? fun x => ?_
          rw [ExtTreeMap.getElem?_insert]
          split
          · rename_i hcmp
            rw [← Std.compare_eq_iff_eq.mp hcmp, hquota]
          · rfl
        rw [heq, hsame]
        exact .same () rfl rfl

end Calls

/-! ### Sequences -/

/-- The graph after a sequence of requests. -/
def TypeGraph.serveAll (g : TypeGraph) (requests : List Request) : TypeGraph :=
  requests.foldl (fun g request => (request.serve g).2) g

/-- A request that leaves the log switched as it is: a call, a query or a change of context. -/
def Request.KeepsLog : Request → Prop
  | .enableProvLog | .disableProvLog => False
  | _ => True

/-- `P` holds of every call of a sequence, on the graph that it is made on. -/
def EveryCall (P : (Nat → Timestamp) → TypeGraph → Op → Prop) : TypeGraph → List Request → Prop
  | _, [] => True
  | g, .call now op :: rest => P now g op ∧ EveryCall P (op.apply now g).2 rest
  | g, request :: rest => EveryCall P (request.serve g).2 rest

/-- Graphs that are exactly alike differ in their logs at most. -/
theorem Alike.eq_of_exact {g g' : TypeGraph} (h : Alike .exact g g') : g = { g' with provLog := g.provLog } := by
  have hinodes : g.inodes = g'.inodes := h.inodes
  have hdirs : g.dirs = g'.dirs := h.dirs
  have hcaps : g.caps = g'.caps := h.caps
  have htransactions : g.transactions = g'.transactions := h.transactions
  have hversions : g.versions = g'.versions := h.versions
  have hblocks : g.blocks = g'.blocks := h.blocks
  have hedges : g.edges = g'.edges := h.edges
  change { g.frame with
      inodes := g.inodes, dirs := g.dirs, caps := g.caps, transactions := g.transactions,
      versions := g.versions, blocks := g.blocks, edges := g.edges, provLog := g.provLog } =
    { g'.frame with
      inodes := g'.inodes, dirs := g'.dirs, caps := g'.caps, transactions := g'.transactions,
      versions := g'.versions, blocks := g'.blocks, edges := g'.edges, provLog := g.provLog }
  rw [h.frame, hinodes, hdirs, hcaps, htransactions, hversions, hblocks, hedges]

theorem Alike.serveAll {L : Likeness} (requests : List Request) : ∀ {g g' : TypeGraph}, Alike L g g' →
    Alike L (g.serveAll requests) (g'.serveAll requests) := by
  induction requests with
  | nil => exact fun h => h
  | cons request requests ih => exact fun h => ih (h.serve request).2

/-- Along a sequence whose calls are all recorded, every call is audited. -/
theorem everyCall_audited (requests : List Request) : ∀ {g : TypeGraph} {log : ProvenanceLog},
    g.NamesFiled → g.provLog = some log → (∀ request ∈ requests, request.KeepsLog) →
      EveryCall (fun _ g op => ¬ op.Unrecorded g) g requests →
        EveryCall (fun now g op => op.Audited now g) g requests := by
  induction requests with
  | nil => exact fun _ _ _ _ => trivial
  | cons request requests ih =>
      intro g log hfiled hlog hkeeps hrecorded
      have hrest : ∀ later ∈ requests, later.KeepsLog := fun later hlater =>
        hkeeps later (List.mem_cons_of_mem request hlater)
      cases request with
      | call now op =>
          have haudited : op.Audited now g := op.audited hfiled hlog hrecorded.1
          obtain ⟨added, hgrown⟩ := haudited.grows
          rw [hlog, Option.map_some] at hgrown
          exact ⟨haudited, ih (hfiled.apply op) hgrown hrest hrecorded.2⟩
      | ask query => exact ih hfiled hlog hrest hrecorded
      | setCapCtx ctx => exact ih (hfiled.congr rfl rfl rfl rfl rfl rfl) hlog hrest hrecorded
      | enableProvLog => exact absurd (hkeeps _ List.mem_cons_self) id
      | disableProvLog => exact absurd (hkeeps _ List.mem_cons_self) id

/-- Enabling the log changes no response and no field but the log. -/
theorem log_noninterference (g : TypeGraph) (requests : List Request) :
    g.enableProvLog.responses requests = g.disableProvLog.responses requests ∧
      ∃ log, g.enableProvLog.serveAll requests =
        { g.disableProvLog.serveAll requests with provLog := log } := by
  have halike : Alike .exact g.enableProvLog g.disableProvLog := (Alike.refl g).onProvLog _ _
  exact ⟨halike.observablyEqual requests, _, (halike.serveAll requests).eq_of_exact⟩

/-- The audit trail. From any graph that any calls have led to, with the log enabled: along every sequence
    of calls, queries and changes of context whose calls are all recorded, every call is audited; and along
    every sequence at all, the responses and every field but the log are those without it. -/
theorem audit_trail {g : TypeGraph} (hrun : Run (fun _ _ _ => True) g) (requests : List Request) :
    ((∀ request ∈ requests, request.KeepsLog) →
      EveryCall (fun _ g op => ¬ op.Unrecorded g) g.enableProvLog requests →
        EveryCall (fun now g op => op.Audited now g) g.enableProvLog requests) ∧
      g.enableProvLog.responses requests = g.disableProvLog.responses requests ∧
        ∃ log, g.enableProvLog.serveAll requests =
          { g.disableProvLog.serveAll requests with provLog := log } :=
  ⟨everyCall_audited requests hrun.enableProvLog.namesFiled rfl, log_noninterference g requests⟩

/-- A file is made, moved to a directory of its own and written, in two contexts. -/
theorem audit_trail_moved :
    EveryCall (fun now g op => op.Audited now g) (TypeGraph.new 0).enableProvLog
      [.setCapCtx ⟨none, 7⟩, .call (fun _ => 1) (.createFile 1 "a" 0 0 .fileDefault),
        .call (fun _ => 2) (.mkdir 1 "d" 0 0 .dirDefault), .setCapCtx .anonymous,
        .call (fun _ => 3) (.rename 1 "a" 2 "b"), .call (fun _ => 4) (.writeData 2 0 [1, 2])] := by
  refine (audit_trail (.new 0) _).1 ?_ ⟨id, id, ?_, id, trivial⟩
  · simp [Request.KeepsLog]
  · rintro ⟨_, _, _, _, _, _, haliased | ⟨_, hfull, _⟩⟩
    · exact absurd haliased (by decide)
    · exact absurd hfull (by decide)

/-- Setting a quota, attaching a block and updating an attribute succeed and leave no entry. -/
theorem calls_unaudited :
    let now := fun _ => 0
    let g := (TypeGraph.new 0).enableProvLog
    let create := Request.call now (.createFile 1 "a" 0 0 .fileDefault)
    ¬ EveryCall (fun now g op => op.Audited now g) g [.call now (.setQuota 1 10 0)] ∧
      ¬ EveryCall (fun now g op => op.Audited now g) g [create, .call now (.writeBlock 2 0 0 8)] ∧
        ¬ EveryCall (fun now g op => op.Audited now g) g
          [create, .call now (.setxattr 2 .user "k" [1]), .call now (.setxattr 2 .user "k" [2])] := by
  refine ⟨?_, ?_, ?_⟩
  · rintro ⟨hquota, _⟩
    refine hquota.shows (a := .done) (by decide) ?_ (by decide)
    intro hsame
    exact absurd (congrArg (fun data => data.quotas[1]?) hsame) (by decide)
  · rintro ⟨_, hblock, _⟩
    refine hblock.shows (a := .block 1) (by decide) ?_ (by decide)
    intro hsame
    exact absurd (congrArg GraphData.nextBlock hsame) (by decide)
  · rintro ⟨_, _, hxattr, _⟩
    refine hxattr.shows (a := .xattr 1) (by decide) ?_ (by decide)
    intro hsame
    exact absurd (congrArg (fun data => data.xattrs[1]?) hsame) (by decide)

end SotFs
