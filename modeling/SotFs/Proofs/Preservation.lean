/-
Module: SotFs.Proofs.Preservation
Layer: Proofs
Purpose: The invariant holds of a new graph, every call that is not refused room keeps it, whatever its
  outcome, and so it holds along every run, with every other property that edits keep.
Trusted boundary: none
Main exports: Inv.new, Run.keep, Reachable.inv, Op.apply_inv
-/
import SotFs.Proofs.Edits

namespace SotFs

open Std (ExtTreeMap ExtTreeSet)
open Relation Foundation

/-! ### The new graph -/

section New

variable (now : Timestamp)

theorem emptyNumbered {T : Type} {CAPACITY : Nat} (idOf : T → Nat) (hcap : CAPACITY < 2 ^ 32)
    (hone : 1 ≤ CAPACITY) : Numbered (.new : Arena T CAPACITY) idOf 1 := .empty hcap hone

theorem new_entries :
    (TypeGraph.new now).entries = Function.update (fun _ : EdgeId => none) 1 (some (1, 1, ".")) :=
  Arena.view_update ((emptyNumbered Edge.id (by decide) (by decide)).insert_data
    (by decide) _)

theorem new_dirInode : (TypeGraph.new now).dirInode = Function.update (fun _ => none) 1 (some 1) :=
  Arena.view_update ((emptyNumbered Directory.id (by decide)
    (by decide)).insert_data (by decide) _)

theorem new_kinds :
    (TypeGraph.new now).kinds = Function.update (fun _ => none) 1 (some .directory) :=
  Arena.view_update ((emptyNumbered Inode.id (by decide) (by decide)).insert_data
    (by decide) _)

/-- The new namespace is the root with its ".". -/
theorem new_shape : (TypeGraph.new now).shape.Ok := by
  have hedge : ∀ {x w}, (TypeGraph.new now).entries x = some w ↔ x = 1 ∧ w = (1, 1, ".") := by
    intro x w
    rw [new_entries, Function.update_apply]
    grind
  have hdir : ∀ {x i}, (TypeGraph.new now).dirInode x = some i ↔ x = 1 ∧ i = 1 := by
    intro x i
    rw [new_dirInode, Function.update_apply]
    grind
  have hkind : ∀ {x k}, (TypeGraph.new now).kinds x = some k ↔ x = 1 ∧ k = .directory := by
    intro x k
    rw [new_kinds, Function.update_apply]
    grind
  have hslot : idToArena 1 = 1 := by decide
  have hroot : (TypeGraph.new now).rootDir = 1 := rfl
  have hrootInode : (TypeGraph.new now).rootInode = 1 := rfl
  constructor <;> simp only [TypeGraph.shape, hedge, hdir, hkind, hroot, hrootInode]
  case rooted =>
    rintro d i ⟨rfl, _⟩
    exact .refl
  case parent =>
    rintro d i ⟨rfl, _⟩ hne
    exact absurd rfl hne
  all_goals grind [UserName]

theorem BlocksOk.empty : BlocksOk (fun _ => none) (fun _ => none) where
  live h := by cases h
  unique h := by cases h
  used h := by cases h

theorem XattrsOk.empty : XattrsOk (fun _ => none) ∅ ∅ 1 where
  owned := by
    intro i x
    constructor
    · intro hx
      exact absurd hx (SetIndex.not_mem_members_empty i x)
    · rintro ⟨_, hx⟩
      cases hx
  unique h := by cases h
  live := by
    intro x
    constructor
    · intro hx
      exact absurd hx ExtTreeMap.not_mem_empty
    · rintro ⟨_, _, hx⟩
      cases hx
  lt_next h := absurd h ExtTreeMap.not_mem_empty

theorem GrantsOk.empty : GrantsOk (fun _ => none) (fun _ => none) ∅ where
  index := UniqueIndex.empty
  live h := by cases h
  used h := by cases h

/-- Nothing but the root's "." is seen in the new edge pool. -/
theorem new_view {β : Type} {f : Edge → Option β} (hf : f (.contains 1 1 1 ".") = none) :
    (TypeGraph.new now).edges.view f = fun _ => none := by
  refine Arena.view_update_eq (a := (.new : Arena Edge EDGE_CAPACITY)) ((emptyNumbered Edge.id
    (by decide) (by decide)).insert_data (by decide) _) ?_
  rw [Option.bind_some, hf]
  rfl

/-- A new graph satisfies the invariant. -/
theorem Inv.new : Inv (TypeGraph.new now) := by
  refine
    { edgeIds := (emptyNumbered _ (by decide) (by decide)).insert (by decide) rfl
      index := ?_
      inodeIds := (emptyNumbered _ (by decide) (by decide)).insert (by decide) rfl
      dirIds := (emptyNumbered _ (by decide) (by decide)).insert (by decide) rfl
      capIds := emptyNumbered _ (by decide) (by decide)
      blockIds := emptyNumbered _ (by decide) (by decide)
      dirKeys := ?_
      dirIdx := ?_
      shape := new_shape now
      links := ?_
      side := ?_
      roots := ⟨rfl, rfl⟩
      noDelegation := rfl }
  · rw [new_entries]
    exact NamesOk.insert ⟨Indexes.empty, Indexes.empty, UniqueIndex.empty⟩ rfl (by
      intro x t hx
      cases hx)
  · intro d
    change d ∈ SetIndex.add ∅ 1 1 ↔ _
    rw [SetIndex.mem_add, new_dirInode, Function.update_apply]
    constructor
    · rintro (rfl | hd)
      · exact ⟨1, if_pos rfl⟩
      · exact absurd hd ExtTreeMap.not_mem_empty
    · rintro ⟨i, hi⟩
      split at hi
      · exact .inl ‹_›
      · cases hi
  · rw [new_dirInode]
    have hnone : UniqueIndex (∅ : ExtTreeMap InodeId DirId) (fun _ => none) fun i : InodeId => i := .empty
    refine hnone.insert (v := 1) rfl ?_
    intro x i hx
    cases hx
  · intro s i hs
    have hinodes : (TypeGraph.new now).inodes.data = Function.update (fun _ => none) 1
        (some { Inode.newDir now 1 .dirDefault 0 0 with linkCount := 1 }) :=
      (emptyNumbered Inode.id (by decide) (by decide)).insert_data (by decide) _
    have hempty : linksTo (fun _ => none) s = ∅ := by
      rw [Finset.eq_empty_iff_forall_notMem]
      intro x hx
      obtain ⟨_, w, hw, _⟩ := mem_linksTo.mp hx
      cases hw
    rw [hinodes, Function.update_apply] at hs
    split at hs
    · rename_i hs1
      cases hs
      rw [new_entries, linksTo_insert_card (by decide) rfl, hempty, Finset.card_empty, hs1,
        if_pos (by decide)]
    · cases hs
  · exact
      { pointers := by
          rw [new_view now rfl]
          exact Indexes.empty
        blocks := by
          rw [new_view now rfl]
          exact BlocksOk.empty
        xattrs := by
          rw [new_view now rfl]
          exact XattrsOk.empty
        grants := by
          rw [new_view now rfl]
          exact GrantsOk.empty
        others := by
          rw [new_view now rfl]
          exact fun _ => rfl }

end New

/-! ### Runs -/

section Runs

variable {link free : TypeGraph → InodeId → Prop} {allowed : TypeGraph → Op → TypeGraph → Prop}

/-- A property of new graphs that every edit keeps holds along every run whose calls have live directory
    arguments, leave graphs that fit, and name and free only inodes that `link` and `free` hold of. -/
theorem Run.keep_of_fits (link free : TypeGraph → InodeId → Prop) {P : TypeGraph → Prop}
    (hnew : ∀ now, P (.new now)) (hstep : ∀ {g g'}, Inv g → P g → Edit link free g g' → P g')
    (hallowed : ∀ {g} op now, Inv g → allowed g op (op.apply now g).2 → op.LiveDirs g ∧
      (op.apply now g).2.Fits ∧ (∀ t, op.Links g t → link g t) ∧ ∀ t, op.Frees g t → free g t) {g : TypeGraph}
    (hrun : Run allowed g) : Inv g ∧ P g := by
  have hcontext : ∀ {g : TypeGraph} (provLog capCtx), Inv g ∧ P g →
      Inv { g with provLog := provLog, capCtx := capCtx } ∧
        P { g with provLog := provLog, capCtx := capCtx } := by
    rintro g provLog capCtx ⟨h, hp⟩
    exact ⟨h.withSides _ _ _ _ _ _, hstep h hp (.sides _ _ _ _ provLog capCtx)⟩
  induction hrun with
  | new now => exact ⟨Inv.new now, hnew now⟩
  | call now op _ hcall ih =>
      obtain ⟨hdirs, hfits, hlinks, hfrees⟩ := hallowed op _ ih.1 hcall
      exact (op.edits _ _ _ ih.1 hdirs hfits hlinks hfrees).keep hstep ih.1 ih.2
  | setCapCtx ctx _ ih => exact hcontext _ ctx ih
  | enableProvLog _ ih => exact hcontext (some []) _ ih
  | disableProvLog _ ih => exact hcontext none _ ih

/-- The same of runs whose calls are not refused room. -/
theorem Run.keep (link free : TypeGraph → InodeId → Prop) {P : TypeGraph → Prop} (hnew : ∀ now, P (.new now))
    (hstep : ∀ {g g'}, Inv g → P g → Edit link free g g' → P g')
    (hallowed : ∀ g op g', allowed g op g' → InCapacityCall g op g' ∧
      (∀ t, op.Links g t → link g t) ∧ ∀ t, op.Frees g t → free g t) {g : TypeGraph}
    (hrun : Run allowed g) : Inv g ∧ P g := by
  refine hrun.keep_of_fits link free hnew hstep ?_
  intro g op now h hcall
  obtain ⟨⟨hdirs, hacc⟩, hlinks, hfrees⟩ := hallowed _ _ _ hcall
  exact ⟨hdirs, hacc.fits h, hlinks, hfrees⟩

/-- The invariant holds of every reachable graph. -/
theorem Reachable.inv {g : TypeGraph} (hg : Reachable g) : Inv g :=
  (Run.keep (fun _ _ => True) (fun _ _ => True) (P := fun _ => True)
    (fun _ => trivial) (fun _ _ _ => trivial)
    (fun _ _ _ hcall => ⟨hcall, fun _ _ => trivial, fun _ _ => trivial⟩) hg).1

/-- Every call that is not refused room keeps the invariant, whatever its outcome. -/
theorem Op.apply_inv {g : TypeGraph} (now : Nat → Timestamp) (op : Op) (h : Inv g)
    (hdirs : op.LiveDirs g) (hacc : Accepted g (op.apply now g).2) : Inv (op.apply now g).2 :=
  (op.edits _ (fun _ _ => True) (fun _ _ => True) h hdirs (hacc.fits h) (fun _ _ => trivial)
    fun _ _ => trivial).inv h

end Runs

end SotFs
