/-
Module: SotFs.Proofs.Room
Layer: Proofs
Purpose: What a reported success is worth. Ids are never reused and a slot is addressed by its id, so an
  arena that has issued its last id refuses every later insertion, and the operations do not ask. As long as
  every call that passes its checks finds room for what it issues, and no link names its inode by another id,
  the entry that a call reports is there and the counts are right, for runs of any length; the first call
  without room reports an entry that is not there.
Trusted boundary: none
Main exports: Op.Passes, Op.HasRoom, Op.FindsRoom, Op.fits, Run.ownTargets_of_room, Op.Truthful,
  entries_reported
-/
import SotFs.Proofs.Acls
import SotFs.Proofs.Replacements
import SotFs.Proofs.Verifiers

namespace SotFs

open Std (ExtTreeMap ExtTreeSet)
open Relation Foundation

/-! ### Room -/

/-- The checks that a call which makes an inode passes, in a live directory. -/
def TypeGraph.CanEnter (g : TypeGraph) (d : DirId) (n : String) : Prop :=
  g.requireCap Rights.write = .ok () ∧ invalidName n = false ∧ g.resolveName d n = none ∧
    g.checkQuotaInode d = .ok ()

/-- The checks that a call passes before it issues ids; those of a call that issues none are left out. -/
def Op.Passes (g : TypeGraph) : Op → Prop
  | .createFile d n .. | .mkdir d n .. | .symlink d n .. => g.CanEnter d n
  | .link d n t => g.CanLink d n t
  | .rename sd sn dd dn => ∃ s, g.resolveName sd sn = some s ∧ g.AdmitsRename sd sn dd dn s
  | .writeBlock t .. => g.requireCap Rights.write = .ok () ∧ g.containsInode t = true
  | .setxattr t _ _ value =>
      g.requireCap Rights.write = .ok () ∧ g.containsInode t = true ∧ value.length ≤ 65536
  | .setacl t _ => g.requireCap Rights.grant = .ok () ∧ g.containsInode t = true
  | _ => True

/-- The arenas have slots for the ids that a call issues. -/
def Op.HasRoom (g : TypeGraph) : Op → Prop
  | .createFile .. | .symlink .. => g.nextInode < NODE_CAPACITY ∧ g.nextEdge < EDGE_CAPACITY
  -- the name, "." and ".."
  | .mkdir .. =>
      g.nextInode < NODE_CAPACITY ∧ g.nextDir < NODE_CAPACITY ∧ g.nextEdge + 3 ≤ EDGE_CAPACITY
  | .link .. => g.nextEdge < EDGE_CAPACITY
  | .rename sd _ dd _ => sd ≠ dd → g.nextEdge < EDGE_CAPACITY
  | .writeBlock .. => g.nextBlock < NODE_CAPACITY ∧ g.nextEdge < EDGE_CAPACITY
  | .setxattr t ns name _ => g.findXattr t ns name = none → g.nextEdge < EDGE_CAPACITY
  | .setacl _ entries =>
      g.nextCap + (grantedEntries entries).length ≤ NODE_CAPACITY ∧
        g.nextEdge + (grantedEntries entries).length ≤ EDGE_CAPACITY
  | _ => True

/-- A call that passes its checks finds room. -/
def Op.FindsRoom (g : TypeGraph) (op : Op) : Prop := op.Passes g → op.HasRoom g

/-- A call with live directory arguments that finds room, and that links no inode by another id. -/
def RoomyCall (g : TypeGraph) (op : Op) (_ : TypeGraph) : Prop :=
  op.LiveDirs g ∧ op.FindsRoom g ∧ ¬ op.LinksAlias g

section Fits

variable {now : Nat → Timestamp} {g g' : TypeGraph}

/-- Only the counters matter. -/
theorem TypeGraph.Fits.congr (hfits : g.Fits) (hi : g'.nextInode = g.nextInode) (hd : g'.nextDir = g.nextDir)
    (hc : g'.nextCap = g.nextCap) (hb : g'.nextBlock = g.nextBlock) (he : g'.nextEdge = g.nextEdge) :
    g'.Fits :=
  ⟨hi.trans_le hfits.nextInode_le, hd.trans_le hfits.nextDir_le, hc.trans_le hfits.nextCap_le,
    hb.trans_le hfits.nextBlock_le, he.trans_le hfits.nextEdge_le⟩

theorem TypeGraph.Fits.settled (hfits : g.Fits) (quotas : ExtTreeMap DirId Quota)
    (provLog : Option ProvenanceLog) : TypeGraph.Fits { g with quotas := quotas, provLog := provLog } :=
  hfits.congr rfl rfl rfl rfl rfl

/-- Settling issues nothing. -/
theorem TypeGraph.Fits.settle {α : Type} {d : DirId} {deltaInodes : Int} {ts : Timestamp} {op : ProvOp}
    {t : InodeId} {detail : String} {value : α} (hfits : g.Fits) :
    (g.settle d deltaInodes ts op t detail value).2.Fits := by
  obtain ⟨quotas, provLog, heq⟩ := settle_snd g d deltaInodes ts op t detail value
  rw [heq]
  exact hfits.settled quotas provLog

/-- One capability and one edge for every entry that is granted. -/
theorem foldl_grantEntry_counters (t : InodeId) (mask : Option Rights) (entries : List AclEntry) :
    ∀ g : TypeGraph,
      (entries.foldl (TypeGraph.grantEntry t mask) g).nextInode = g.nextInode ∧
      (entries.foldl (TypeGraph.grantEntry t mask) g).nextDir = g.nextDir ∧
      (entries.foldl (TypeGraph.grantEntry t mask) g).nextBlock = g.nextBlock ∧
      (entries.foldl (TypeGraph.grantEntry t mask) g).nextCap = g.nextCap + (grantedBy mask entries).length ∧
      (entries.foldl (TypeGraph.grantEntry t mask) g).nextEdge =
        g.nextEdge + (grantedBy mask entries).length := by
  induction entries with
  | nil => exact fun g => ⟨rfl, rfl, rfl, rfl, rfl⟩
  | cons entry entries ih =>
      intro g
      obtain ⟨hi, hd, hb, hc, he⟩ := ih (TypeGraph.grantEntry t mask g entry)
      rw [List.foldl_cons, hi, hd, hb, hc, he, grantEntry_eq, grantedBy, grantedBy]
      by_cases hskip : entry.tag = .mask ∨ (effectiveRights mask entry).bits = 0
      · rw [if_pos hskip, List.filter_cons_of_neg (by simpa [or_iff_not_imp_left] using hskip)]
        exact ⟨rfl, rfl, rfl, rfl, rfl⟩
      · rw [if_neg hskip, List.filter_cons_of_pos (by simpa using hskip), List.length_cons]
        refine ⟨rfl, rfl, rfl, ?_, ?_⟩
        · change g.nextCap + 1 + _ = _
          omega
        · change g.nextEdge + 1 + _ = _
          omega

/-- A rename between directories that went through its checks issues one edge id, any other none. -/
theorem Renamed.nextEdge_le {sd dd : DirId} {sn dn : String} (h : Inv g) (hren : Renamed now g sd sn dd dn g')
    (hcap : g.requireCap Rights.write = .ok ()) (hsn : UserName sn) (hdn : UserName dn)
    (hroom : Op.FindsRoom g (.rename sd sn dd dn)) : g'.nextEdge ≤ EDGE_CAPACITY := by
  cases hren with
  | same => exact h.edgeIds.next_le
  | @inPlace e t g₁ hdir hne he _ hcleared =>
      subst hdir
      have he' := hcleared.keep hsn (fun hpair => hne (congrArg Prod.snd hpair)) he
      exact (hcleared.inv.renameEntry he' hsn hdn hne hcleared.free).edgeIds.next_le
  | @moved e t g₁ hne he hcycle hremove hcleared he' =>
      have hs : g.resolveName sd sn = some t := h.resolveName_iff.mpr ⟨e, he⟩
      have hadmits : g.AdmitsRename sd sn dd dn t :=
        ⟨hcap, hsn, hdn, fun _ => hcycle, canReplace_of_removed hremove⟩
      rw [hcleared.inv.moveEntry_nextEdge he', hcleared.nextEdge]
      exact hroom ⟨t, hs, hadmits⟩ hne

/-- A call that finds room issues no id past the capacity of its arena, whatever its outcome. -/
theorem Op.fits (now : Nat → Timestamp) (op : Op) (h : Inv g) (hdirs : op.LiveDirs g)
    (hroom : op.FindsRoom g) : (op.apply now g).2.Fits := by
  have hfits := h.fits
  cases op with
  | createFile d n u gr p =>
      rcases createFile_cases now d n u gr p g with
        ⟨o, _, heq⟩ | ⟨hcap, hname, hfree, _, hquota, heq⟩
      · rw [Op.apply, heq]
        exact hfits
      · obtain ⟨hi, he⟩ := hroom ⟨hcap, hname, hfree, hquota⟩
        rw [Op.apply, Prod.map_snd, heq]
        have hentered : (g.enterInode (createdInode now g u gr p) d n).Fits :=
          { hfits with nextInode_le := hi, nextEdge_le := he }
        exact hentered.settle
  | mkdir d n u gr p =>
      rcases mkdir_cases now d n u gr p g with
        ⟨o, _, heq⟩ | ⟨hcap, hname, hfree, hquota, parent, _, heq⟩
      · rw [Op.apply, heq]
        exact hfits
      · obtain ⟨hi, hd, he⟩ := hroom ⟨hcap, hname, hfree, hquota⟩
        rw [Op.apply, Prod.map_snd, heq]
        have hentered : (g.enterDir (madeDirInode now g u gr p) d parent.inodeId n).Fits :=
          { hfits with nextInode_le := hi, nextDir_le := hd, nextEdge_le := he }
        exact hentered.settle
  | rmdir d n =>
      have hedits : Edits (fun _ _ => True) (fun _ _ => True) g (SotFs.rmdir now d n g).2 :=
        h.rmdir_edits fun _ _ => trivial
      exact (hedits.inv h).fits
  | link d n t =>
      rcases link_cases now d n t g with
        ⟨o, _, heq⟩ | ⟨hcap, hn, hfree, i, hi, hkind, hmax, heq⟩
      · rw [Op.apply, heq]
        exact hfits
      · have he : g.nextEdge < EDGE_CAPACITY := hroom ⟨hcap, hn, hfree, i, hi, hkind, hmax⟩
        rw [Op.apply, heq]
        have hentered : (g.enterLink d t n).Fits := { hfits with nextEdge_le := he }
        exact hentered.settled _ _
  | unlink d n =>
      have hedits : Edits (fun _ _ => True) (fun _ _ => True) g (SotFs.unlink now d n g).2 :=
        h.unlink_edits fun _ _ => trivial
      exact (hedits.inv h).fits
  | rename sd sn dd dn =>
      rcases rename_spec now sd sn dd dn h with
        ⟨o, _, heq⟩ | ⟨hsn, hdn, g₁, hren, heq⟩
      · rw [Op.apply, heq]
        exact hfits
      · cases hcap : g.requireCap Rights.write with
        | error e =>
            rw [rename_of_refused hcap] at heq
            cases heq
        | ok _ =>
            have hedits : Edits (fun _ _ => True) (fun _ _ => True) g g₁ :=
              hren.edits h hsn hdn (hdirs dd (by simp [Op.dirs])) (hren.nextEdge_le h hcap hsn hdn hroom)
                fun _ _ _ _ _ _ => trivial
            rw [Op.apply, heq]
            exact (hedits.inv h).fits.settled _ _
  | symlink d n t u gr =>
      rcases symlink_cases now d n t u gr g with
        ⟨o, _, heq⟩ | ⟨hcap, hname, hfree, _, hquota, heq⟩
      · rw [Op.apply, heq]
        exact hfits
      · obtain ⟨hi, he⟩ := hroom ⟨hcap, hname, hfree, hquota⟩
        rw [Op.apply, Prod.map_snd, heq]
        have hentered : (g.enterSymlink (symlinkInode now g t u gr) d n t).Fits :=
          { hfits with nextInode_le := hi, nextEdge_le := he }
        exact hentered.settle
  | writeBlock t o s c =>
      rcases writeBlock_cases t o s c g with ⟨o', _, heq⟩ | ⟨hcap, hlive, heq⟩
      · rw [Op.apply, heq]
        exact hfits
      · obtain ⟨hb, he⟩ := hroom ⟨hcap, hlive⟩
        rw [Op.apply, heq]
        exact { hfits with nextBlock_le := hb, nextEdge_le := he }
  | writeData t o b =>
      rcases writeData_cases now t o b g with ⟨e, heq⟩ | ⟨_, _, _, ⟨buf, heq⟩ | ⟨buf, heq⟩⟩ <;>
        rw [Op.apply, heq] <;> exact hfits.congr rfl rfl rfl rfl rfl
  | truncate t s =>
      rcases truncate_cases now t s g with ⟨e, heq⟩ | ⟨_, _, _, ⟨buf, heq⟩ | heq⟩ <;>
        rw [Op.apply, heq] <;> exact hfits.congr rfl rfl rfl rfl rfl
  | chmod t m =>
      rcases chmod_cases now t m g with ⟨o, _, heq⟩ | ⟨_, heq⟩ <;>
        rw [Op.apply, heq] <;> exact hfits.congr rfl rfl rfl rfl rfl
  | chown t u gr =>
      rcases chown_cases now t u gr g with ⟨o, _, heq⟩ | ⟨_, heq⟩ <;>
        rw [Op.apply, heq] <;> exact hfits.congr rfl rfl rfl rfl rfl
  | setxattr t ns n v =>
      rcases setxattr_cases now t ns n v g with
        ⟨o, _, heq⟩ | ⟨hcap, hlive, hsize, ⟨a, _, heq⟩ | ⟨hnone, heq⟩⟩
      · rw [Op.apply, heq]
        exact hfits
      · rw [Op.apply, heq]
        exact hfits.congr rfl rfl rfl rfl rfl
      · have he : g.nextEdge < EDGE_CAPACITY := hroom ⟨hcap, hlive, hsize⟩ hnone
        rw [Op.apply, heq]
        exact { hfits with nextEdge_le := he }
  | removexattr t ns n =>
      rcases removexattr_cases now t ns n g with ⟨o, _, heq⟩ | ⟨_, _, a, ha, heq⟩
      · rw [Op.apply, heq]
        exact hfits
      · obtain ⟨e, he⟩ := h.attached_of_findXattr ha
        rw [Op.apply, heq]
        exact (h.dropXattr he).fits.settled _ _
  | setacl t es =>
      rcases setacl_cases now t es g with ⟨o, _, heq⟩ | ⟨hcap, hlive, heq⟩
      · rw [Op.apply, heq]
        exact hfits
      · obtain ⟨hcaps, hedges⟩ := hroom ⟨hcap, hlive⟩
        obtain ⟨_, _, _, hdrop, _⟩ := h.dropGrants_eq t
        obtain ⟨hi, hd, hb, hc, he⟩ := foldl_grantEntry_counters t (aclMask es) es
          { g.dropGrants t with acls := (g.dropGrants t).acls.insert t es }
        rw [Op.apply, heq]
        rw [hdrop] at hi hd hb hc he ⊢
        exact ⟨hi.trans_le hfits.nextInode_le, hd.trans_le hfits.nextDir_le, hc.trans_le hcaps,
          hb.trans_le hfits.nextBlock_le, he.trans_le hedges⟩
  | setQuota d il bl =>
      rcases setQuota_cases d il bl g with ⟨o, _, heq⟩ | ⟨_, _, heq⟩ <;>
        rw [Op.apply, heq] <;> exact hfits.congr rfl rfl rfl rfl rfl

end Fits

/-! ### Runs -/

/-- Along a run whose calls find room and link no inode by another id, the invariant holds, and every name
    leads to its inode by the inode's own id. -/
theorem Run.ownTargets_of_room {g : TypeGraph} (hrun : Run RoomyCall g) : Inv g ∧ g.OwnTargets := by
  refine hrun.keep_of_fits (fun g t => ∀ i, g.getInode t = some i → i.id = t) (fun _ _ => True) ownTargets_new
    (fun h hown hedit => hedit.ownTargets h hown) ?_
  rintro g op now h ⟨hdirs, hroom, halias⟩
  exact ⟨hdirs, op.fits now h hdirs hroom, Op.own_of_not_linksAlias halias, fun _ _ => trivial⟩

/-! ### What a call reports -/

/-- The calls that make an entry. -/
def Op.MakesEntry : Op → Prop
  | .createFile .. | .mkdir .. | .symlink .. | .link .. => True
  | _ => False

/-- The entry that a successful call reports: its directory, its name, and the inode it returns or links. -/
def Op.entry : Op → Reply → Option (DirId × String × InodeId)
  | .createFile d n .., .inode t | .symlink d n .., .inode t => some (d, n, t)
  | .mkdir d n .., .created result => some (d, n, result.inodeId)
  | .link d n t, _ => some (d, n, t)
  | _, _ => none

/-- An entry is there with its inode, and the link counts, the name index and the self references pass. -/
structure TypeGraph.EntryKept (g : TypeGraph) (d : DirId) (n : String) (t : InodeId) : Prop where
  present : ∃ i, g.getInode t = some i ∧ i.id = t
  resolves : g.resolveName d n = some t
  linkCounts : g.checkLinkCountConsistency = .ok ()
  nameIndex : g.checkDirNameIdxConsistency = .ok ()
  selfRef : g.checkDirSelfRef = .ok ()

/-- What a call reports has happened, and without room it fails and leaves the graph as it is. -/
structure Op.Truthful (now : Nat → Timestamp) (g : TypeGraph) (op : Op) : Prop where
  made : ∀ r d n t, (op.apply now g).1 = .ok r → op.entry r = some (d, n, t) →
    (op.apply now g).2.EntryKept d n t
  refused : ¬ op.HasRoom g → ∃ e, op.apply now g = (.err e, g)

section Reports

variable {now : Nat → Timestamp} {g : TypeGraph} {d : DirId} {n : String}

/-- In a live directory the checks pass, or an error is all there is. -/
theorem Inv.checked_cases {α : Type} (h : Inv g) (hd : g.LiveDir d) (n : String)
    (made : Outcome α × TypeGraph) :
    (g.CanEnter d n ∧ g.checked d n made = made) ∨
      (¬ g.CanEnter d n ∧ ∃ e, g.checked d n made = (.err e, g)) := by
  obtain ⟨di, hdi⟩ := h.liveDir_iff.mp hd
  unfold TypeGraph.checked TypeGraph.CanEnter
  rw [h.containsDir_eq hdi]
  cases hcap : g.requireCap Rights.write with
  | error e => exact .inr ⟨by simp, e, rfl⟩
  | ok _ =>
      cases hname : invalidName n with
      | true => exact .inr ⟨by simp, _, rfl⟩
      | false =>
          cases hres : g.resolveName d n with
          | some t => exact .inr ⟨by simp, _, rfl⟩
          | none =>
              rcases h.checkQuotaInode_cases hdi with hquota | ⟨e, hquota⟩
              · rw [hquota]
                exact .inl ⟨⟨rfl, rfl, rfl, rfl⟩, rfl⟩
              · rw [hquota]
                exact .inr ⟨by simp, e, rfl⟩

theorem Inv.mkdir_eq_checked {u gr : UInt32} {p : Permissions} {di : InodeId} (h : Inv g)
    (hdi : g.dirInode d = some di) :
    mkdir now d n u gr p g = g.checked d n
      ((g.enterDir (madeDirInode now g u gr p) d di n).settle d 1 (now 1) .mkdir g.nextInode n
        ⟨g.nextInode, some g.nextDir⟩) := by
  rw [SotFs.mkdir_eq_checked, h.getDir_eq hdi]
  rfl

/-- link passes its checks and succeeds, or returns an error and does nothing. -/
theorem link_checked (now : Nat → Timestamp) (d : DirId) (n : String) (t : InodeId) (g : TypeGraph) :
    (g.CanLink d n t ∧ (link now d n t g).1 = .ok ()) ∨
      (¬ g.CanLink d n t ∧ ∃ e, link now d n t g = (.err e, g)) := by
  unfold link TypeGraph.CanLink
  cases hcap : g.requireCap Rights.write with
  | error e => exact .inr ⟨by simp, e, rfl⟩
  | ok _ =>
      dsimp only
      by_cases hname : n = "." ∨ n = ".."
      · rw [if_pos hname]
        refine .inr ⟨?_, _, rfl⟩
        rintro ⟨_, hn, _⟩
        exact hname.elim hn.1 hn.2
      · rw [if_neg hname]
        cases hres : g.resolveName d n with
        | some t' => exact .inr ⟨by simp, _, rfl⟩
        | none =>
            cases hi : g.getInode t with
            | none => exact .inr ⟨by simp, _, rfl⟩
            | some i =>
                dsimp only
                by_cases hkind : i.vtype = .directory
                · rw [if_neg (by simp), if_pos hkind]
                  refine .inr ⟨?_, _, rfl⟩
                  rintro ⟨_, _, _, _, ⟨⟩, hno, _⟩
                  exact hno hkind
                · by_cases hmax : LINK_MAX ≤ i.linkCount
                  · rw [if_neg (by simp), if_neg hkind, if_pos hmax]
                    refine .inr ⟨?_, _, rfl⟩
                    rintro ⟨_, _, _, _, ⟨⟩, _, hlt⟩
                    exact absurd hmax (not_le.mpr hlt)
                  · rw [if_neg (by simp), if_neg hkind, if_neg hmax]
                    exact .inl ⟨⟨rfl, not_or.mp hname, rfl, i, rfl, hkind, not_le.mp hmax⟩, rfl⟩

/-- A call that makes an entry passes its checks and returns no error, or returns one and does nothing. -/
theorem Op.passes_or_err (now : Nat → Timestamp) {op : Op} (h : Inv g) (hdirs : op.LiveDirs g)
    (hop : op.MakesEntry) :
    (op.Passes g ∧ ∀ e, (op.apply now g).1 ≠ .err e) ∨
      (¬ op.Passes g ∧ ∃ e, op.apply now g = (.err e, g)) := by
  have hmap : ∀ {α : Type} {f : α → Reply} {o : Outcome α}, (∀ e, o ≠ .err e) → ∀ e, o.map f ≠ .err e := by
    intro α f o hne e he
    cases o with
    | err e' => exact hne e' rfl
    | ok | panic | diverges => cases he
  have hmade : ∀ {α : Type} {f : α → Reply} {d : DirId} {n : String} {r made : Outcome α × TypeGraph},
      g.LiveDir d → r = g.checked d n made → (∀ e, made.1 ≠ .err e) →
      (g.CanEnter d n ∧ ∀ e, (r.map (Outcome.map f) id).1 ≠ .err e) ∨
        (¬ g.CanEnter d n ∧ ∃ e, r.map (Outcome.map f) id = (.err e, g)) := by
    intro α f d n r made hd hr hne
    rcases h.checked_cases hd n made with ⟨hcan, heq⟩ | ⟨hno, e, heq⟩
    · rw [hr, heq]
      exact .inl ⟨hcan, hmap hne⟩
    · rw [hr, heq]
      exact .inr ⟨hno, e, rfl⟩
  cases op with
  | createFile d n u gr p =>
      exact hmade (hdirs d (by simp [Op.dirs])) createFile_eq_checked fun _ => settle_ne_err _
  | mkdir d n u gr p =>
      obtain ⟨di, hdi⟩ := h.liveDir_iff.mp (hdirs d (by simp [Op.dirs]))
      exact hmade (hdirs d (by simp [Op.dirs])) (h.mkdir_eq_checked hdi) fun _ => settle_ne_err _
  | symlink d n t u gr =>
      exact hmade (hdirs d (by simp [Op.dirs])) symlink_eq_checked fun _ => settle_ne_err _
  | link d n t =>
      rcases link_checked now d n t g with ⟨hcan, hok⟩ | ⟨hno, e, heq⟩
      · refine .inl ⟨hcan, fun e he => ?_⟩
        rw [Op.apply, Prod.map_fst, hok] at he
        cases he
      · rw [Op.apply, heq]
        exact .inr ⟨hno, e, rfl⟩
  | _ => exact absurd hop id

/-- After a call that left a graph that fits, the name it reports leads to the inode it reports. -/
theorem Op.entry_resolves {op : Op} {r : Reply} {t : InodeId} (h : Inv g) (hdirs : op.LiveDirs g)
    (hfits : (op.apply now g).2.Fits) (h' : Inv (op.apply now g).2) (hok : (op.apply now g).1 = .ok r)
    (hentry : op.entry r = some (d, n, t)) : (op.apply now g).2.resolveName d n = some t := by
  cases op with
  | createFile d n u gr p =>
      rcases createFile_spec h (hdirs d (by simp [Op.dirs])) hfits with
        ⟨o, hfail, heq⟩ | ⟨_, _, _, he, _, q, l, heq⟩
      · rw [Op.apply, heq] at hok
        exact absurd hok (Outcome.map_ne_ok hfail _ _)
      · rw [Op.apply, heq] at hok h' ⊢
        cases hok
        cases hentry
        refine h'.resolveName_iff.mpr ⟨g.nextEdge, ?_⟩
        change (g.enterInode (createdInode now g u gr p) d n).entries g.nextEdge = _
        rw [h.enterInode_entries _ _ _ he, Function.update_self]
  | mkdir d n u gr p =>
      rcases mkdir_spec h (hdirs d (by simp [Op.dirs])) hfits with
        ⟨o, hfail, heq⟩ | ⟨_, _, _, _, he, di, _, _, q, l, heq⟩
      · rw [Op.apply, heq] at hok
        exact absurd hok (Outcome.map_ne_ok hfail _ _)
      · rw [Op.apply, heq] at hok h' ⊢
        cases hok
        cases hentry
        refine h'.resolveName_iff.mpr ⟨g.nextEdge, ?_⟩
        change (g.enterDir (madeDirInode now g u gr p) d di n).entries g.nextEdge = _
        rw [h.enterDir_entries _ _ _ _ he, Function.update_of_ne (Nat.lt_succ_of_lt (Nat.lt_succ_self _)).ne,
          Function.update_of_ne (Nat.lt_succ_self _).ne, Function.update_self]
  | symlink d n target u gr =>
      rcases symlink_spec h (hdirs d (by simp [Op.dirs])) hfits with
        ⟨o, hfail, heq⟩ | ⟨_, _, _, he, _, q, l, heq⟩
      · rw [Op.apply, heq] at hok
        exact absurd hok (Outcome.map_ne_ok hfail _ _)
      · rw [Op.apply, heq] at hok h' ⊢
        cases hok
        cases hentry
        refine h'.resolveName_iff.mpr ⟨g.nextEdge, ?_⟩
        change (g.enterInode (symlinkInode now g target u gr) d n).entries g.nextEdge = _
        rw [h.enterInode_entries _ _ _ he, Function.update_self]
  | link d n t =>
      rcases link_spec h (hdirs d (by simp [Op.dirs])) hfits with
        ⟨o, hfail, heq⟩ | ⟨_, _, he, _, _, _, _, l, heq⟩
      · rw [Op.apply, heq] at hok
        exact absurd hok (Outcome.map_ne_ok hfail _ _)
      · rw [Op.apply, heq] at hok h' ⊢
        cases hok
        cases hentry
        refine h'.resolveName_iff.mpr ⟨g.nextEdge, ?_⟩
        change (g.enterLink d t n).entries g.nextEdge = _
        rw [h.enterLink_entries he, Function.update_self]
  | _ => cases hentry

/-- A link by another id that succeeds leaves a wrong count. -/
theorem Op.truthful_not_linksAlias {op : Op} (h : Inv g) (hdirs : op.LiveDirs g) (hroom : op.FindsRoom g)
    (htrue : op.Truthful now g) : ¬ op.LinksAlias g := by
  rintro ⟨t, i, hlinks, hi, hne⟩
  cases op with
  | link d n target =>
      obtain ⟨rfl, hcan⟩ := hlinks
      have hfits : (SotFs.link now d n t g).2.Fits := Op.fits now (.link d n t) h hdirs hroom
      rcases link_spec h (hdirs d (by simp [Op.dirs])) hfits with
        ⟨o, hfail, heq⟩ | ⟨_, _, _, _, _, _, hinv, l, heq⟩
      · rcases link_checked now d n t g with ⟨_, hok⟩ | ⟨hno, _⟩
        · rw [heq] at hok
          exact hfail () hok
        · exact hno hcan
      · have hok : ((Op.link d n t).apply now g).1 = .ok .done := by
          rw [Op.apply, heq]
          rfl
        have hkept := htrue.made _ d n t hok rfl
        rw [Op.apply, heq] at hkept
        have h' : Inv { g.enterLink d t n with provLog := l } := hinv.withSides _ _ _ _ _ _
        obtain ⟨e, he⟩ := h'.resolveName_iff.mp hkept.resolves
        have hslot : idToArena t = t := h'.checkLinkCountConsistency_iff.mp hkept.linkCounts he
        rw [TypeGraph.getInode, Arena.get_eq_data] at hi
        exact hne ((h.inodeIds.id_eq hi).trans hslot)
  | _ => exact hlinks

end Reports

/-- Along a run whose calls find room and link no inode by another id, a call of create_file, mkdir, symlink
    or link reports what happened, and fails without a trace where it has no room, exactly when it finds room
    and links no inode by another id itself. -/
theorem entries_reported {g : TypeGraph} (hrun : Run RoomyCall g) (now : Nat → Timestamp) (op : Op)
    (hdirs : op.LiveDirs g) (hop : op.MakesEntry) :
    op.Truthful now g ↔ op.FindsRoom g ∧ ¬ op.LinksAlias g := by
  obtain ⟨h, _⟩ := hrun.ownTargets_of_room
  have hchecked := op.passes_or_err now h hdirs hop
  constructor
  · intro htrue
    have hroom : op.FindsRoom g := by
      intro hpasses
      rcases hchecked with ⟨_, hne⟩ | ⟨hno, _⟩
      · by_contra hfull
        obtain ⟨e, he⟩ := htrue.refused hfull
        exact hne e (congrArg Prod.fst he)
      · exact absurd hpasses hno
    exact ⟨hroom, op.truthful_not_linksAlias h hdirs hroom htrue⟩
  · rintro ⟨hroom, halias⟩
    obtain ⟨h', hown'⟩ := (hrun.call now op ⟨hdirs, hroom, halias⟩).ownTargets_of_room
    constructor
    · intro r d n t hok hentry
      have hres := op.entry_resolves h hdirs (op.fits now h hdirs hroom) h' hok hentry
      obtain ⟨e, he⟩ := h'.resolveName_iff.mp hres
      obtain ⟨i, hi⟩ := h'.getInode_of_entry he
      have hid : i.id = t := by
        have hdata := hi
        rw [TypeGraph.getInode, Arena.get_eq_data] at hdata
        exact (h'.inodeIds.id_eq hdata).trans (hown' he)
      exact ⟨⟨i, hi, hid⟩, hres, h'.checkLinkCountConsistency_iff.mpr hown', h'.checkDirNameIdxConsistency_ok,
        h'.checkDirSelfRef_ok⟩
    · intro hfull
      rcases hchecked with ⟨hpasses, _⟩ | ⟨_, herr⟩
      · exact absurd (hroom hpasses) hfull
      · exact herr

/-- A second name for a new file, made under its own id. -/
theorem entries_reported_linked :
    (Op.link 1 "b" 2).Truthful (fun _ => 0)
      ((TypeGraph.new 0).calls (fun _ => 0) [.createFile 1 "a" 0 0 .fileDefault]) := by
  have hroom : (Op.createFile 1 "a" 0 0 .fileDefault).FindsRoom (.new 0) := fun _ => ⟨by decide, by decide⟩
  have halias : ¬ (Op.createFile 1 "a" 0 0 .fileDefault).LinksAlias (.new 0) := by
    rintro ⟨t, i, hlinks, _⟩
    exact hlinks
  have hrun : Run RoomyCall
      ((TypeGraph.new 0).calls (fun _ => 0) [.createFile 1 "a" 0 0 .fileDefault]) :=
    .call _ _ (.new 0) ⟨by decide, hroom, halias⟩
  refine (entries_reported hrun (fun _ => 0) (.link 1 "b" 2) (by decide) trivial).mpr ⟨fun _ => ?_, ?_⟩
  · change TypeGraph.nextEdge _ < _
    decide
  · rintro ⟨t, i, ⟨rfl, _⟩, hi, hne⟩
    have hid : (((TypeGraph.new 0).calls (fun _ => 0)
        [.createFile 1 "a" 0 0 .fileDefault]).getInode 2).map Inode.id = some 2 := by decide
    exact hne (Option.some.inj ((congrArg (Option.map Inode.id) hi).symm.trans hid))

/-! ### The pool of edges runs out -/

/-- A second name of inode 2 is made and taken away again. -/
def relink : List Op := [.link 1 "b" 2, .unlink 1 "b"]

/-- A run that has issued the edge ids below `k` and left one file, inode 2, with the name "b" or without. -/
structure Relinked (named : Bool) (k : Nat) (g : TypeGraph) : Prop where
  run : Run RoomyCall g
  admin : g.capCtx.capId = none
  root : g.dirInode 1 = some 1
  name : g.resolveName 1 "b" = if named then some 2 else none
  file : ∃ i, g.getInode 2 = some i ∧ i.id = 2 ∧ i.vtype ≠ .directory ∧ i.linkCount = if named then 2 else 1
  nextEdge : g.nextEdge = k

namespace Relinked

variable {named : Bool} {k : Nat} {g : TypeGraph} {now : Nat → Timestamp}

theorem inv (hg : Relinked named k g) : Inv g := hg.run.ownTargets_of_room.1

theorem liveDirs (hg : Relinked named k g) {op : Op} (hdirs : op.dirs = [1]) : op.LiveDirs g := by
  intro d hd
  rw [hdirs] at hd
  cases List.mem_singleton.mp hd
  exact hg.inv.liveDir_iff.mpr ⟨1, hg.root⟩

theorem cap (hg : Relinked named k g) (needed : UInt8) : g.requireCap needed = .ok () := by
  rw [TypeGraph.requireCap, hg.admin]

theorem canLink (hg : Relinked false k g) : g.CanLink 1 "b" 2 := by
  obtain ⟨i, hi, _, hkind, hcount⟩ := hg.file
  refine ⟨hg.cap _, by decide, hg.name, i, hi, hkind, ?_⟩
  rw [hcount]
  decide

/-- The link succeeds, whether there is room or not. -/
theorem link_ok (now : Nat → Timestamp) (hg : Relinked false k g) :
    (SotFs.link now 1 "b" 2 g).1 = .ok () := by
  rcases link_checked now 1 "b" 2 g with ⟨_, hok⟩ | ⟨hno, _⟩
  · exact hok
  · exact absurd hg.canLink hno

/-- The name goes in while there is an edge id left. -/
theorem link (hg : Relinked false k g) (hlt : k < EDGE_CAPACITY) :
    Relinked true (k + 1) ((Op.link 1 "b" 2).apply now g).2 := by
  have h := hg.inv
  obtain ⟨i, hi, hid, hkind, hcount⟩ := hg.file
  have hroom : (Op.link 1 "b" 2).FindsRoom g := fun _ => hg.nextEdge.trans_lt hlt
  have halias : ¬ (Op.link 1 "b" 2).LinksAlias g := by
    rintro ⟨t, j, ⟨rfl, _⟩, hj, hne⟩
    cases hi.symm.trans hj
    exact hne hid
  have hdirs : (Op.link 1 "b" 2).LiveDirs g := hg.liveDirs rfl
  have hrun := hg.run.call now _ ⟨hdirs, hroom, halias⟩
  rcases link_spec h (hdirs 1 (by simp [Op.dirs])) (Op.fits now _ h hdirs hroom) with
    ⟨o, hfail, heq⟩ | ⟨_, _, he, _, _, _, _, l, heq⟩
  · have hok := hg.link_ok now
    rw [heq] at hok
    exact absurd hok (hfail ())
  · rw [Op.apply, heq] at hrun ⊢
    have h' := hrun.ownTargets_of_room.1
    refine
      { run := hrun
        admin := hg.admin
        root := hg.root
        name := h'.resolveName_iff.mpr ⟨g.nextEdge, ?_⟩
        file := ⟨{ i with linkCount := i.linkCount + 1 }, ?_, hid, hkind, congrArg (· + 1) hcount⟩
        nextEdge := congrArg (· + 1) hg.nextEdge }
    · change (g.enterLink 1 2 "b").entries g.nextEdge = _
      rw [h.enterLink_entries he, Function.update_self]
    · rw [TypeGraph.getInode, Arena.get_eq_data] at hi
      change (g.inodes.modify (idToArena 2) _).get (idToArena 2) = _
      rw [Arena.get_eq_data, Arena.data_modify, Function.update_self, hi]
      rfl

/-- The name comes out again. -/
theorem unlink (hg : Relinked true k g) : Relinked false k ((Op.unlink 1 "b").apply now g).2 := by
  have h := hg.inv
  obtain ⟨i, hi, hid, hkind, hcount⟩ := hg.file
  have halias : ¬ (Op.unlink 1 "b").LinksAlias g := by
    rintro ⟨_, _, hlinks, _⟩
    exact hlinks
  have hrun := hg.run.call now (.unlink 1 "b") ⟨hg.liveDirs rfl, fun _ => trivial, halias⟩
  have hok : (SotFs.unlink now 1 "b" g).1 = .ok () := h.unlink_ok (hg.cap _) (by decide) hg.name hi hkind
  rcases unlink_spec now 1 "b" h with
    ⟨o, hfail, heq⟩ | ⟨e, t, j, hn, he, hj, _, hcase⟩
  · rw [heq] at hok
    exact absurd hok (hfail ())
  · cases (h.resolveName_iff.mpr ⟨e, he⟩).symm.trans hg.name
    cases hi.symm.trans hj
    rcases hcase with ⟨_, h', l, heq⟩ | ⟨hlast, _⟩
    · have hdrop := h.dropName_eq he
      rw [Op.apply, heq] at hrun ⊢
      have h' := hrun.ownTargets_of_room.1
      refine
        { run := hrun
          admin := ?_
          root := ?_
          name := h'.resolveName_eq_none_iff.mpr ?_
          file := ⟨{ i with linkCount := decrement32 i.linkCount }, ?_, hid, hkind, ?_⟩
          nextEdge := ?_ }
      · change (g.dropName e 1 2).capCtx.capId = none
        rw [hdrop]
        exact hg.admin
      · change (g.dropName e 1 2).dirInode 1 = some 1
        rw [hdrop]
        exact hg.root
      · intro x t hx
        change (g.dropName e 1 2).entries x = _ at hx
        rw [h.dropName_entries he, Function.update_apply] at hx
        split at hx
        · cases hx
        · rename_i hxe
          exact hxe (h.names hx he)
      · change (g.dropName e 1 2).inodes.get (idToArena 2) = _
        rw [Arena.get_eq_data, h.dropName_inodes he hi, Function.update_self]
      · exact (congrArg decrement32 hcount).trans (by decide)
      · change (g.dropName e 1 2).nextEdge = k
        rw [hdrop]
        exact hg.nextEdge
    · rw [hcount] at hlast
      exact absurd hlast (by decide)

/-- Pair after pair, as long as there are edge ids. -/
theorem calls (now : Nat → Timestamp) (m : Nat) : ∀ {g : TypeGraph} {k : Nat}, Relinked false k g →
    k + m ≤ EDGE_CAPACITY → Relinked false (k + m) (g.calls now (List.replicate m relink).flatten) := by
  induction m with
  | zero =>
      intro g k hg _
      exact hg
  | succ m ih =>
      intro g k hg hle
      rw [List.replicate_succ, List.flatten_cons, TypeGraph.calls, List.foldl_append,
        show k + (m + 1) = k + 1 + m by omega]
      exact ih (hg.link (by omega)).unlink (by omega)

end Relinked

/-- A name entered when the pool of edges is full is in the index and nowhere else. -/
theorem resolveName_enterLink_full {g : TypeGraph} {d : DirId} {t : InodeId} {n : String}
    (hnext : g.nextEdge = EDGE_CAPACITY) : (g.enterLink d t n).resolveName d n = none := by
  have hslot : idToArena EDGE_CAPACITY = EDGE_CAPACITY := by decide
  have hedge : (g.enterLink d t n).getEdge EDGE_CAPACITY = none := by
    rw [TypeGraph.getEdge, hslot, Arena.get_eq_data]
    exact Arena.data_eq_none_of_le _ le_rfl
  have hindex : (g.enterLink d t n).dirNameIdx = g.dirNameIdx.insert (d, n) EDGE_CAPACITY := by
    rw [← hnext]
    rfl
  have hlookup : (g.enterLink d t n).lookupName d n = none := by
    unfold TypeGraph.lookupName
    rw [hindex, ExtTreeMap.isEmpty_eq_false_iff.mpr ExtTreeMap.insert_ne_empty,
      ExtTreeMap.getElem?_insert_self]
    exact hedge
  rw [TypeGraph.resolveName, hlookup]

/-- After the creation of the file. -/
theorem relinked_created :
    Relinked false 3 ((TypeGraph.new 0).calls (fun _ => 0) [.createFile 1 "a" 0 0 .fileDefault]) := by
  have hfile : (((TypeGraph.new 0).calls (fun _ => 0) [.createFile 1 "a" 0 0 .fileDefault]).getInode 2).map
      (fun i => (i.id, i.vtype, i.linkCount)) = some (2, .regular, 1) := by decide
  obtain ⟨i, hi, hrecord⟩ := Option.map_eq_some_iff.mp hfile
  simp only [Prod.mk.injEq] at hrecord
  obtain ⟨hid, hkind, hcount⟩ := hrecord
  refine
    { run := .call _ _ (.new 0) ⟨by decide, fun _ => ⟨by decide, by decide⟩, ?_⟩
      admin := rfl
      root := by decide
      name := by decide
      file := ⟨i, hi, hid, ?_, hcount⟩
      nextEdge := by decide }
  · rintro ⟨_, _, hlinks, _⟩
    exact hlinks
  · rw [hkind]
    decide

/-- With the edge ids used up, the next link succeeds without room for its edge, and the name leads nowhere. -/
theorem Relinked.link_lost {g : TypeGraph} (hfull : Relinked false EDGE_CAPACITY g) :
    Run (fun g op _ => op.LiveDirs g) g ∧ (Op.link 1 "b" 2).LiveDirs g ∧ ¬ (Op.link 1 "b" 2).HasRoom g ∧
      ((Op.link 1 "b" 2).apply (fun _ => 0) g).1 = .ok .done ∧
      ((Op.link 1 "b" 2).apply (fun _ => 0) g).2.resolveName 1 "b" = none := by
  refine ⟨hfull.run.mono fun _ _ _ hcall => hcall.1, hfull.liveDirs rfl, ?_, ?_⟩
  · intro hroom
    exact absurd hfull.nextEdge hroom.ne
  · rcases link_cases (fun _ => 0) 1 "b" 2 g with
      ⟨o, hfail, heq⟩ | ⟨_, _, _, _, _, _, _, heq⟩
    · have hok := hfull.link_ok fun _ => 0
      rw [heq] at hok
      exact absurd hok (hfail ())
    · rw [Op.apply, heq]
      exact ⟨rfl, resolveName_enterLink_full hfull.nextEdge⟩

/-- One link and unlink after another until the edge ids are used up: the next link succeeds, with no room for
    its edge, and the name leads nowhere. -/
theorem link_reported_lost :
    let g := (((TypeGraph.new 0).calls (fun _ => 0) [.createFile 1 "a" 0 0 .fileDefault]).calls (fun _ => 0)
      (List.replicate 131069 relink).flatten)
    Run (fun g op _ => op.LiveDirs g) g ∧ (Op.link 1 "b" 2).LiveDirs g ∧ ¬ (Op.link 1 "b" 2).HasRoom g ∧
      ((Op.link 1 "b" 2).apply (fun _ => 0) g).1 = .ok .done ∧
      ((Op.link 1 "b" 2).apply (fun _ => 0) g).2.resolveName 1 "b" = none := by
  have hfull := relinked_created.calls (fun _ => 0) 131069 (by decide)
  rw [show 3 + 131069 = EDGE_CAPACITY by decide] at hfull
  exact hfull.link_lost

end SotFs
