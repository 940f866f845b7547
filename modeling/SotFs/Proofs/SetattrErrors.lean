/-
Module: SotFs.Proofs.SetattrErrors
Layer: Proofs
Purpose: What an error of a setattr request leaves behind. The handler applies chmod, chown and truncate one
  after the other and takes none of them back. On a live inode the first two succeed, so an error there comes
  from a size that is asked for on an inode that is no regular file, after its mode and owner are written.
Trusted boundary: none
Main exports: TypeGraph.attributesOf, SetattrAtomic, Settled, setattr_atomic_iff
-/
import SotFs.Core.Fuse
import SotFs.Proofs.OpCases

namespace SotFs

open Std (ExtTreeMap ExtTreeSet)

/-- The permissions, owner and size of an inode, and its content. -/
def TypeGraph.attributesOf (g : TypeGraph) (ino : InodeId) :
    Option (Permissions × UInt32 × UInt32 × Nat) × Option (List UInt8) :=
  ((g.getInode ino).map fun i => (i.permissions, i.uid, i.gid, i.size), g.fileData[ino]?)

/-- A request that gets an error for its reply leaves the attributes and the content as they were. -/
def SetattrAtomic (now : Nat → Nat → Timestamp) (req : FuseCaller) (ino : InodeId)
    (mode uid gid : Option UInt32) (size : Option Nat) (m : Mount) : Prop :=
  ∀ errno, (Fuse.setattr now req ino mode uid gid size m).1 = some (.error errno) →
    (Fuse.setattr now req ino mode uid gid size m).2.graph.attributesOf ino = m.graph.attributesOf ino

/-- A mode and an owner that are asked for are those that the inode has. -/
def Inode.Settled (i : Inode) (mode uid gid : Option UInt32) : Prop :=
  (∀ m, mode = some m → Fuse.permsOf m = i.permissions) ∧ (∀ u, uid = some u → u = i.uid) ∧
    ∀ gr, gid = some gr → gr = i.gid

section Steps

variable {now : Nat → Timestamp} {g : TypeGraph} {ino : InodeId} {i : Inode}

theorem requireCap_anonymous (hctx : g.capCtx.capId = none) (right : UInt8) : g.requireCap right = .ok () := by
  rw [TypeGraph.requireCap, hctx]

theorem getInode_modifyInode (f : Inode → Inode) :
    (g.modifyInode ino f).getInode ino = (g.getInode ino).map f := by
  simp [TypeGraph.getInode, TypeGraph.modifyInode]

/-- Under the context of a FUSE request the three operations fail on an inode that is not there. -/
theorem chmod_missing (hctx : g.capCtx.capId = none) (hnone : g.getInode ino = none) (mode : UInt16) :
    chmod now ino mode g = (.err (.inodeNotFound ino), g) := by
  rw [chmod, requireCap_anonymous hctx, hnone]

theorem chown_missing (hctx : g.capCtx.capId = none) (hnone : g.getInode ino = none)
    (uid gid : Option UInt32) : chown now ino uid gid g = (.err (.inodeNotFound ino), g) := by
  rw [chown, requireCap_anonymous hctx, hnone]

theorem truncate_missing (hctx : g.capCtx.capId = none) (hnone : g.getInode ino = none) (size : Nat) :
    truncate now ino size g = (.err (.inodeNotFound ino), g) := by
  rw [truncate, requireCap_anonymous hctx, hnone]

/-- chmod succeeds on a live inode. -/
theorem chmod_live (now : Nat → Timestamp) (hctx : g.capCtx.capId = none) (hi : g.getInode ino = some i) (mode : UInt16) :
    ∃ g', chmod now ino mode g = (.ok (), g') ∧ g'.capCtx = g.capCtx ∧ g'.fileData = g.fileData ∧
      g'.getInode ino = some { i with permissions := ⟨mode⟩ } := by
  refine ⟨(g.modifyInode ino fun i => { i with permissions := ⟨mode⟩ }).recordProv (now 0) .chmod ino "",
    by rw [chmod, requireCap_anonymous hctx, hi], rfl, rfl, ?_⟩
  change (g.modifyInode ino _).getInode ino = _
  rw [getInode_modifyInode, hi]
  rfl

/-- chown succeeds on a live inode. -/
theorem chown_live (now : Nat → Timestamp) (hctx : g.capCtx.capId = none) (hi : g.getInode ino = some i) (uid gid : Option UInt32) :
    ∃ g', chown now ino uid gid g = (.ok (), g') ∧ g'.capCtx = g.capCtx ∧ g'.fileData = g.fileData ∧
      g'.getInode ino = some { i with uid := uid.getD i.uid, gid := gid.getD i.gid } := by
  refine ⟨(g.modifyInode ino fun i => { i with uid := uid.getD i.uid, gid := gid.getD i.gid }).recordProv
    (now 0) .chown ino "", by rw [chown, requireCap_anonymous hctx, hi], rfl, rfl, ?_⟩
  change (g.modifyInode ino _).getInode ino = _
  rw [getInode_modifyInode, hi]
  rfl

/-- truncate fails on a live inode that is no regular file. -/
theorem truncate_irregular (hctx : g.capCtx.capId = none) (hi : g.getInode ino = some i)
    (hkind : i.vtype ≠ .regular) (size : Nat) :
    truncate now ino size g = (.err (.notAFile ino), g) := by
  rw [truncate, requireCap_anonymous hctx, hi]
  exact if_pos hkind

/-- On a regular file it succeeds or panics. -/
theorem truncate_regular (now : Nat → Timestamp) (hctx : g.capCtx.capId = none) (hi : g.getInode ino = some i)
    (hkind : i.vtype = .regular) (size : Nat) :
    (truncate now ino size g).1 = .panic ∨
      ∃ g', truncate now ino size g = (.ok (), g') ∧ ∃ i', g'.getInode ino = some i' := by
  rw [truncate, requireCap_anonymous hctx, hi]
  dsimp only
  rw [if_neg (not_not.mpr hkind)]
  split
  · exact .inl rfl
  · refine .inr ⟨_, rfl, { i with size := size, mtime := now 0 }, ?_⟩
    change (TypeGraph.modifyInode { g with fileData := _ } ino _).getInode ino = _
    rw [getInode_modifyInode]
    exact congrArg (Option.map _) hi

end Steps

section Requests

variable {now : Nat → Nat → Timestamp} {req : FuseCaller} {ino : InodeId} {mode uid gid : Option UInt32}
  {size : Option Nat} {m : Mount}

/-- A step that is not asked for is passed over; one that succeeds goes on from the graph it leaves. -/
theorem setattrStep_ok {α : Type} {requested : Bool} {op : TypeGraph → Outcome α × TypeGraph} {a : α}
    {g : TypeGraph} {next : Mount → Fuse.Handled} (hok : requested = true → op m.graph = (.ok a, g))
    (hskip : requested = false → g = m.graph) :
    Fuse.setattrStep requested op m next = next { m with graph := g } := by
  cases requested with
  | false =>
      rw [hskip rfl]
      rfl
  | true =>
      rw [Fuse.setattrStep, if_pos rfl, hok rfl]

/-- One that fails ends the request with an error. -/
theorem setattrStep_err {α : Type} {op : TypeGraph → Outcome α × TypeGraph} {e : GraphError} {g : TypeGraph}
    {next : Mount → Fuse.Handled} (herr : op m.graph = (.err e, g)) :
    Fuse.setattrStep true op m next = (some (.error .ENOENT), { m with graph := g }) := by
  rw [Fuse.setattrStep, if_pos rfl, herr]

/-- One that panics gives no reply. -/
theorem setattrStep_panic {α : Type} {op : TypeGraph → Outcome α × TypeGraph} {next : Mount → Fuse.Handled}
    (hpanic : (op m.graph).1 = .panic) : (Fuse.setattrStep true op m next).1 = none := by
  rw [Fuse.setattrStep, if_pos rfl, ← Prod.mk.eta (p := op m.graph), hpanic]

/-- An inode that is not there gets an error, and nothing is written. -/
theorem setattr_missing (hnone : m.graph.getInode ino = none) :
    (Fuse.setattr now req ino mode uid gid size m).2.graph.attributesOf ino = m.graph.attributesOf ino := by
  have hctx : (m.graph.setCapCtx (ctxFromReq req)).capCtx.capId = none := rfl
  have hnone' : (m.graph.setCapCtx (ctxFromReq req)).getInode ino = none := hnone
  unfold Fuse.setattr Fuse.setattrStep
  dsimp only
  rw [chmod_missing hctx hnone', chown_missing hctx hnone', truncate_missing hctx hnone', hnone']
  split
  · rfl
  · split
    · rfl
    · split <;> rfl

/-- The inode after the first two steps. -/
def Inode.owned (i : Inode) (mode uid gid : Option UInt32) : Inode :=
  { i with
    permissions := (mode.map Fuse.permsOf).getD i.permissions
    uid := uid.getD i.uid
    gid := gid.getD i.gid }

/-- The first two steps succeed on a live inode: what is left of the request is the truncation. -/
theorem setattr_live (now : Nat → Nat → Timestamp) (req : FuseCaller) (mode uid gid : Option UInt32)
    (size : Option Nat) {i : Inode} (hi : m.graph.getInode ino = some i) :
    ∃ g, g.capCtx.capId = none ∧ g.fileData = m.graph.fileData ∧ g.getInode ino = some (i.owned mode uid gid) ∧
      Fuse.setattr now req ino mode uid gid size m =
        Fuse.setattrStep size.isSome (truncate (now 2) ino (size.getD 0)) { m with graph := g } fun m =>
          match m.graph.getInode ino with
          | some inode => (some (.attr (inodeToAttr inode)), m)
          | none => (some (.error .ENOENT), m) := by
  obtain ⟨g₁, hctx₁, hdata₁, hi₁, hstep₁⟩ : ∃ g₁ : TypeGraph, g₁.capCtx.capId = none ∧
      g₁.fileData = m.graph.fileData ∧
        g₁.getInode ino = some { i with permissions := (mode.map Fuse.permsOf).getD i.permissions } ∧
          ∀ next, Fuse.setattrStep mode.isSome (chmod (now 0) ino (Fuse.permsOf (mode.getD 0)).mode)
            { m with graph := m.graph.setCapCtx (ctxFromReq req) } next = next { m with graph := g₁ } := by
    cases mode with
    | none => exact ⟨m.graph.setCapCtx (ctxFromReq req), rfl, rfl, hi, fun _ => rfl⟩
    | some perms =>
        obtain ⟨g₁, heq, hctx₁, hdata₁, hi₁⟩ := chmod_live (now 0)
          (g := m.graph.setCapCtx (ctxFromReq req)) rfl hi (Fuse.permsOf perms).mode
        refine ⟨g₁, by rw [hctx₁]; rfl, hdata₁, hi₁, fun next => ?_⟩
        exact setattrStep_ok (fun _ => heq) fun hfalse => by cases hfalse
  obtain ⟨g₂, hctx₂, hdata₂, hi₂, hstep₂⟩ : ∃ g₂ : TypeGraph, g₂.capCtx.capId = none ∧
      g₂.fileData = g₁.fileData ∧ g₂.getInode ino = some (i.owned mode uid gid) ∧
        ∀ next, Fuse.setattrStep (uid.isSome || gid.isSome) (chown (now 1) ino uid gid)
          { m with graph := g₁ } next = next { m with graph := g₂ } := by
    cases hasked : uid.isSome || gid.isSome with
    | false =>
        rw [Bool.or_eq_false_iff, Option.isSome_eq_false_iff, Option.isSome_eq_false_iff,
          Option.isNone_iff_eq_none, Option.isNone_iff_eq_none] at hasked
        obtain ⟨rfl, rfl⟩ := hasked
        exact ⟨g₁, hctx₁, rfl, hi₁, fun _ => rfl⟩
    | true =>
        obtain ⟨g₂, heq, hctx₂, hdata₂, hi₂⟩ := chown_live (now 1) hctx₁ hi₁ uid gid
        refine ⟨g₂, by rw [hctx₂]; exact hctx₁, hdata₂, hi₂, fun next => ?_⟩
        exact setattrStep_ok (fun _ => heq) fun hfalse => by cases hfalse
  refine ⟨g₂, hctx₂, hdata₂.trans hdata₁, hi₂, ?_⟩
  rw [Fuse.setattr, hstep₁]
  exact hstep₂ _

/-- The steps before the truncation change nothing that was not asked to change. -/
theorem Inode.owned_eq_iff {i : Inode} :
    ((i.owned mode uid gid).permissions, (i.owned mode uid gid).uid, (i.owned mode uid gid).gid,
      (i.owned mode uid gid).size) = (i.permissions, i.uid, i.gid, i.size) ↔ i.Settled mode uid gid := by
  cases mode <;> cases uid <;> cases gid <;> simp [Inode.owned, Inode.Settled]

/-- An erring setattr is atomic exactly when it does not ask for a size on an inode that is no regular file
    together with a mode or owner that the inode does not have. -/
theorem setattr_atomic_iff (now : Nat → Nat → Timestamp) (req : FuseCaller) (ino : InodeId)
    (mode uid gid : Option UInt32) (size : Option Nat) (m : Mount) :
    SetattrAtomic now req ino mode uid gid size m ↔
      ∀ i, m.graph.getInode ino = some i → i.vtype ≠ .regular → size.isSome = true →
        i.Settled mode uid gid := by
  unfold SetattrAtomic
  cases hi : m.graph.getInode ino with
  | none => exact iff_of_true (fun _ _ => setattr_missing hi) fun i hsome => by cases hsome
  | some i =>
      obtain ⟨g, hctx, hdata, hinode, heq⟩ := setattr_live now req mode uid gid size hi
      rw [heq]
      cases size with
      | none =>
          refine iff_of_true (fun errno herr => ?_) fun _ _ _ hasked => by cases hasked
          rw [Option.isSome_none, Fuse.setattrStep, if_neg Bool.false_ne_true] at herr
          dsimp only at herr
          rw [hinode] at herr
          cases herr
      | some n =>
          rw [Option.isSome_some, Option.getD_some]
          by_cases hkind : i.vtype = .regular
          · refine iff_of_true (fun errno herr => ?_) fun i' hi' hirregular => ?_
            · rcases truncate_regular (now 2) hctx hinode hkind n with hpanic | ⟨g', hok, i', hi'⟩
              · rw [setattrStep_panic hpanic] at herr
                cases herr
              · rw [setattrStep_ok (fun _ => hok) fun hfalse => by cases hfalse] at herr
                dsimp only at herr
                rw [hi'] at herr
                cases herr
            · cases hi'
              exact absurd hkind hirregular
          · -- the truncation fails after the mode and the owner are written
            rw [setattrStep_err (truncate_irregular hctx hinode hkind n), TypeGraph.attributesOf,
              TypeGraph.attributesOf, hi, hinode, hdata]
            constructor
            · intro h i' hi' _ _
              cases hi'
              have hsame := congrArg Prod.fst (h .ENOENT rfl)
              exact Inode.owned_eq_iff.mp (Option.some.inj hsame)
            · intro h _ _
              have hsame := Inode.owned_eq_iff.mpr (h i rfl hkind rfl)
              rw [Option.map_some, Option.map_some, hsame]

/-- A mode and a size asked for on the root directory: the mode is changed and the request fails. -/
theorem setattr_half_applied :
    ¬ SetattrAtomic (fun _ _ => 0) ⟨0, 0⟩ 1 (some 0o700) none none (some 0) ⟨.new 0, ∅, 1⟩ := by
  intro h
  exact absurd (congrArg Prod.fst (h .ENOENT (by decide))) (by decide)

end Requests

end SotFs
