/-
Module: SotFs.Proofs.BlockEdges
Layer: Proofs
Purpose: Block edges. Only write_block makes one, under the next block id; every other call keeps those it
  does not remove. The edge names its block by an inode's tag, so the readers that go by the tag take the
  block's id for an inode's: `BlocksMirrored` says that they always find an inode there.
Trusted boundary: none
Main exports: Op.nextBlock_eq, Op.pointers, TypeGraph.BlocksMirrored, Op.Unmirrors, Op.blocksMirrored
-/
import SotFs.Proofs.EditFrames
import SotFs.Proofs.Preservation

namespace SotFs

open Std (ExtTreeMap ExtTreeSet)
open Relation Foundation

/-! ### Where block edges come from -/

/-- The call makes a block for a live inode. -/
def Op.Attaches (g : TypeGraph) : Op → Prop
  | .writeBlock t _ _ _ => g.requireCap Rights.write = .ok () ∧ g.containsInode t = true
  | _ => False

section Calls

variable {now : Nat → Timestamp} {g : TypeGraph} {op : Op}

theorem settle_nextBlock {α : Type} (g : TypeGraph) (d : DirId) (delta : Int) (now : Timestamp) (op : ProvOp)
    (t : InodeId) (detail : String) (value : α) :
    (g.settle d delta now op t detail value).2.nextBlock = g.nextBlock := by
  obtain ⟨_, _, heq⟩ := settle_snd g d delta now op t detail value
  rw [heq]

theorem rmdir_nextBlock {d : DirId} {n : String} : (rmdir now d n g).2.nextBlock = g.nextBlock := by
  rcases rmdir_cases now d n g with
    ⟨o, _, heq⟩ | ⟨_, _, ti, td, _, _, _, _, _, _, heq⟩ <;> rw [heq]
  obtain ⟨_, _, _, _, _, _, hdropped⟩ := dropDir_frame (g := g) d n ti td
  rw [settle_nextBlock, hdropped]

theorem unlink_nextBlock {d : DirId} {n : String} : (unlink now d n g).2.nextBlock = g.nextBlock := by
  rcases unlink_cases now d n g with
    ⟨o, _, heq⟩ | ⟨_, _, _, e, t, m, _, _, _, _, ⟨_, heq⟩ | ⟨_, heq⟩⟩ <;> rw [heq]
  · obtain ⟨_, _, _, _, hdropped⟩ := dropName_frame (g := g) e d t
    rw [hdropped]
    rfl
  · obtain ⟨_, _, _, _, _, hdropped⟩ := dropLastName_frame (g := g) e d t
    rw [settle_nextBlock, hdropped]

/-- No call but write_block issues a block id. -/
theorem Op.nextBlock_eq (hop : ¬ op.Attaches g) : (op.apply now g).2.nextBlock = g.nextBlock := by
  cases op with
  | createFile d n u gr p =>
      rw [Op.apply, Prod.map_snd]
      rcases createFile_cases now d n u gr p g with
        ⟨o, _, heq⟩ | ⟨_, _, _, _, _, heq⟩ <;> rw [heq]
      · rfl
      · exact settle_nextBlock _ _ _ _ _ _ _ _
  | symlink d n target u gr =>
      rw [Op.apply, Prod.map_snd]
      rcases symlink_cases now d n target u gr g with
        ⟨o, _, heq⟩ | ⟨_, _, _, _, _, heq⟩ <;> rw [heq]
      · rfl
      · exact settle_nextBlock _ _ _ _ _ _ _ _
  | mkdir d n u gr p =>
      rw [Op.apply, Prod.map_snd]
      rcases mkdir_cases now d n u gr p g with
        ⟨o, _, heq⟩ | ⟨_, _, _, _, parent, _, heq⟩ <;> rw [heq]
      · rfl
      · exact settle_nextBlock _ _ _ _ _ _ _ _
  | link d n t =>
      rw [Op.apply, Prod.map_snd]
      rcases link_cases now d n t g with
        ⟨o, _, heq⟩ | ⟨_, _, _, _, _, _, _, heq⟩ <;> rw [heq]
      · rfl
      · rfl
  | rmdir d n =>
      rw [Op.apply, Prod.map_snd]
      exact rmdir_nextBlock
  | unlink d n =>
      rw [Op.apply, Prod.map_snd]
      exact unlink_nextBlock
  | rename sd sn dd dn =>
      rw [Op.apply, Prod.map_snd]
      exact rename_keeps_frame (P := fun g' => g'.nextBlock = g.nextBlock) rfl rmdir_nextBlock unlink_nextBlock
        fun _ _ _ _ _ _ h => h
  | writeBlock t offset start count =>
      rw [Op.apply, Prod.map_snd]
      rcases writeBlock_cases t offset start count g with ⟨o, _, heq⟩ | ⟨hcap, hlive, _⟩
      · rw [heq]
        rfl
      · exact absurd ⟨hcap, hlive⟩ hop
  | writeData t offset data =>
      rw [Op.apply, Prod.map_snd]
      rcases writeData_cases now t offset data g with
        ⟨e, heq⟩ | ⟨_, _, _, ⟨buf, heq⟩ | ⟨buf, heq⟩⟩ <;> rw [heq] <;> rfl
  | truncate t newSize =>
      rw [Op.apply, Prod.map_snd]
      rcases truncate_cases now t newSize g with
        ⟨e, heq⟩ | ⟨_, _, _, ⟨buf, heq⟩ | heq⟩ <;> rw [heq] <;> rfl
  | chmod t mode =>
      rw [Op.apply, Prod.map_snd]
      rcases chmod_cases now t mode g with ⟨o, _, heq⟩ | ⟨_, heq⟩ <;>
        rw [heq] <;> rfl
  | chown t u gr =>
      rw [Op.apply, Prod.map_snd]
      rcases chown_cases now t u gr g with ⟨o, _, heq⟩ | ⟨_, heq⟩ <;>
        rw [heq] <;> rfl
  | setxattr t ns name value =>
      rw [Op.apply, Prod.map_snd]
      rcases setxattr_cases now t ns name value g with
        ⟨o, _, heq⟩ | ⟨_, _, _, ⟨a, _, heq⟩ | ⟨_, heq⟩⟩ <;> rw [heq] <;> rfl
  | removexattr t ns name =>
      rw [Op.apply, Prod.map_snd]
      rcases removexattr_cases now t ns name g with
        ⟨o, _, heq⟩ | ⟨_, _, a, _, heq⟩ <;> rw [heq]
      · rfl
      · obtain ⟨_, _, hdropped⟩ := dropXattr_frame (g := g) t a
        rw [hdropped]
        rfl
  | setacl t entries =>
      rw [Op.apply, Prod.map_snd]
      rcases setacl_cases now t entries g with ⟨o, _, heq⟩ | ⟨_, _, heq⟩ <;>
        rw [heq]
      · rfl
      · obtain ⟨_, _, _, _, _, _, hgranted⟩ := replaceGrants_frame (g := g) t entries
        rw [hgranted]
        rfl
  | setQuota d il bl =>
      rw [Op.apply, Prod.map_snd]
      rcases setQuota_cases d il bl g with ⟨o, _, heq⟩ | ⟨_, _, heq⟩ <;>
        rw [heq] <;> rfl

/-- An edit that issues no block id makes no block edge. -/
theorem Edit.pointers {link free : TypeGraph → InodeId → Prop} {g' : TypeGraph} (h : Inv g)
    (hedit : Edit link free g g') (hsame : ¬ g.nextBlock < g'.nextBlock) {x : EdgeId}
    {w : InodeId × BlockId × Nat} (hx : g'.edges.view Edge.pointer x = some w) :
    g.edges.view Edge.pointer x = some w := by
  rcases hedit.sideView h (f := Edge.pointer) (fun _ _ _ _ => rfl) x with
    hnone | hold | ⟨_, v, _, hv, _, _, hpointer⟩
  · rw [hnone] at hx
    cases hx
  · exact hold ▸ hx
  · rw [Arena.view, hv, Option.bind_some, hpointer.resolve_right hsame] at hx
    cases hx

/-- A block edge that a call leaves was there before, or write_block made it with the next block. -/
theorem Op.pointers (h : Inv g) (hcall : InCapacityCall g op (op.apply now g).2) {x : EdgeId} {t : InodeId}
    {b : BlockId} {o : Nat} (hx : (op.apply now g).2.edges.view Edge.pointer x = some (t, b, o)) :
    g.edges.view Edge.pointer x = some (t, b, o) ∨
      (b = g.nextBlock ∧ op.Attaches g ∧ ∃ s c, op = .writeBlock t o s c) := by
  by_cases hop : op.Attaches g
  · cases op with
    | writeBlock t' o' s c =>
        have heq : (Op.apply now g (.writeBlock t' o' s c)).2 = g.attachBlock t' o' s c := by
          rcases writeBlock_cases t' o' s c g with
            ⟨out, hfail, heq⟩ | ⟨_, _, heq⟩
          · rw [SotFs.writeBlock, hop.1] at heq
            simp only [hop.2, Bool.not_true, Bool.false_eq_true, if_false, Prod.mk.injEq] at heq
            exact absurd heq.1.symm (hfail _)
          · rw [Op.apply, heq]
            rfl
        have hnext : g.nextEdge + 1 ≤ EDGE_CAPACITY := by
          have hacc := hcall.2
          rw [heq] at hacc
          exact hacc.nextEdge_le h.edgeIds.next_le
        rw [heq] at hx
        change (g.edges.insertAt (idToArena g.nextEdge) (.pointsTo g.nextEdge t' g.nextBlock o')).2.view
          Edge.pointer x = _ at hx
        rw [h.view_newEdge_some hnext (w := (t', g.nextBlock, o')) rfl, Function.update_apply] at hx
        split at hx
        · cases hx
          exact .inr ⟨rfl, hop, s, c, rfl⟩
        · exact .inl hx
    | _ => exact absurd hop id
  · -- without a new block id no edit made a block edge
    have hedits : Edits (fun _ _ => True) (fun _ _ => True) g (op.apply now g).2 :=
      op.edits _ _ _ h hcall.1 (hcall.2.fits h) (fun _ _ => trivial) fun _ _ => trivial
    have hkept := (hedits.keep (P := fun g' => g.nextBlock ≤ g'.nextBlock ∧
      (g.nextBlock < g'.nextBlock ∨ ∀ x w, g'.edges.view Edge.pointer x = some w →
        g.edges.view Edge.pointer x = some w)) ?_ h ⟨le_rfl, .inr fun _ _ hw => hw⟩).2.2
    · rw [op.nextBlock_eq hop] at hkept
      exact .inl (hkept.resolve_left (lt_irrefl _) x _ hx)
    · rintro g₁ g₂ h₁ ⟨hle, hkept⟩ hedit
      have hmono := (hedit.counters h₁).block
      refine ⟨hle.trans hmono, ?_⟩
      by_cases hgrown : g.nextBlock < g₂.nextBlock
      · exact .inl hgrown
      · have hsame : ¬ g₁.nextBlock < g₂.nextBlock := fun hlt => hgrown (lt_of_le_of_lt hle hlt)
        have hsame' : ¬ g.nextBlock < g₁.nextBlock := fun hlt => hgrown (lt_of_lt_of_le hlt hmono)
        exact .inr fun y w hw => hkept.resolve_left hsame' y w (hedit.pointers h₁ hsame hw)

/-! ### Block ids taken for inode ids -/

/-- Every block edge's block id is the id of a live inode too. -/
def TypeGraph.BlocksMirrored (g : TypeGraph) : Prop :=
  ∀ {x t b o}, g.edges.view Edge.pointer x = some (t, b, o) → g.containsInode b = true

/-- No block id that an edge names has the slot of the inode at `t`, but for block edges that go with a file
    when it is freed. -/
def TypeGraph.MirrorsNone (g : TypeGraph) (t : InodeId) : Prop :=
  ∀ x t' b o, g.edges.view Edge.pointer x = some (t', b, o) → idToArena b = idToArena t →
    t' = t ∧ ∀ i, g.getInode t = some i → i.vtype ≠ .directory

/-- The call leaves a block edge whose block id is no live inode's: it makes one, or frees the inode. -/
def Op.Unmirrors (g : TypeGraph) (op : Op) : Prop :=
  (op.Attaches g ∧ g.containsInode g.nextBlock = false) ∨ ∃ t, op.Frees g t ∧ ¬ g.MirrorsNone t

theorem blocksMirrored_new (now : Timestamp) : (TypeGraph.new now).BlocksMirrored := by
  intro x t b o hx
  rw [new_view now rfl] at hx
  cases hx

/-- An inode keeps its kind unless the call frees it, and then a file's block edges are gone. -/
theorem Op.kinds_freed (h : Inv g) (hcall : InCapacityCall g op (op.apply now g).2) {s : Nat} {k : VnodeType}
    (hs : g.kinds s = some k) :
    (op.apply now g).2.kinds s = some k ∨ ∃ t, idToArena t = s ∧ op.Frees g t ∧ (k ≠ .directory →
      ∀ x b o, (op.apply now g).2.edges.view Edge.pointer x ≠ some (t, b, o)) := by
  by_cases hop : op.Attaches g
  · rcases op.kinds_kept h hcall hs with hkept | ⟨t, _, hfrees⟩
    · exact .inl hkept
    · cases op with
      | writeBlock => exact absurd hfrees id
      | _ => exact absurd hop id
  · have hedits : Edits (fun _ _ => True) (fun _ t => op.Frees g t) g (op.apply now g).2 :=
      op.edits _ _ _ h hcall.1 (hcall.2.fits h) (fun _ _ => trivial) fun _ ht => ht
    have hfreed := (hedits.keep (P := fun g' => g.nextBlock ≤ g'.nextBlock ∧ (g.nextBlock < g'.nextBlock ∨
      g'.kinds s = some k ∨ ∃ t, idToArena t = s ∧ op.Frees g t ∧ (k ≠ .directory →
        ∀ x b o, g'.edges.view Edge.pointer x ≠ some (t, b, o)))) ?_ h ⟨le_rfl, .inr (.inl hs)⟩).2.2
    · rw [op.nextBlock_eq hop] at hfreed
      exact hfreed.resolve_left (lt_irrefl _)
    · rintro g₁ g₂ h₁ ⟨hle, hfreed⟩ hedit
      have hmono := (hedit.counters h₁).block
      refine ⟨hle.trans hmono, ?_⟩
      by_cases hgrown : g.nextBlock < g₂.nextBlock
      · exact .inl hgrown
      · have hsame : ¬ g₁.nextBlock < g₂.nextBlock := fun hlt => hgrown (lt_of_le_of_lt hle hlt)
        have hsame' : ¬ g.nextBlock < g₁.nextBlock := fun hlt => hgrown (lt_of_lt_of_le hlt hmono)
        refine .inr ?_
        rcases hfreed.resolve_left hsame' with hk | ⟨t, ht, hfrees, hgone⟩
        · rcases hedit.kinds h₁ hk with hk' | ⟨t, ht, hfrees, hgone⟩
          · exact .inl hk'
          · refine .inr ⟨t, ht, hfrees, fun hfile x b o hx => ?_⟩
            have hold := hedit.pointers h₁ hsame hx
            rw [Arena.view, hgone hfile x b o (h₁.pointer_iff.mp hold)] at hx
            cases hx
        · exact .inr ⟨t, ht, hfrees, fun hfile x b o hx => hgone hfile x b o (hedit.pointers h₁ hsame hx)⟩

/-- A call that leaves no block id without its inode keeps them mirrored. -/
theorem Op.blocksMirrored (h : Inv g) (hmirrored : g.BlocksMirrored)
    (hcall : InCapacityCall g op (op.apply now g).2) (hop : ¬ op.Unmirrors g) :
    (op.apply now g).2.BlocksMirrored := by
  have hmirrors : ∀ {t}, op.Frees g t → g.MirrorsNone t := by
    intro t hfrees
    by_contra hmirrors
    exact hop (.inr ⟨t, hfrees, hmirrors⟩)
  intro x t b o hx
  rcases op.pointers h hcall hx with hold | ⟨rfl, hattaches, s, c, rfl⟩
  · obtain ⟨k, hk⟩ := TypeGraph.containsInode_iff.mp (hmirrored hold)
    rcases op.kinds_freed h hcall hk with hkept | ⟨t', hslot, hfrees, hgone⟩
    · exact TypeGraph.containsInode_iff.mpr ⟨k, hkept⟩
    · obtain ⟨rfl, hfile⟩ := hmirrors hfrees x t b o hold hslot.symm
      obtain ⟨i, hi, hkind⟩ := Arena.view_eq_some.mp hk
      rw [← hslot] at hi
      cases hkind
      exact absurd hx (hgone (hfile i (by rw [TypeGraph.getInode, Arena.get_eq_data, hi])) x b o)
  · have hlive : g.containsInode g.nextBlock = true := by
      by_contra hdead
      exact hop (.inl ⟨hattaches, by simpa using hdead⟩)
    rcases Op.live_kept h hcall hlive with hkept | ⟨_, _, hfrees⟩
    · exact hkept
    · exact hfrees.elim

end Calls

end SotFs
