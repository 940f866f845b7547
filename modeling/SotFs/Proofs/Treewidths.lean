/-
Module: SotFs.Proofs.Treewidths
Layer: Proofs
Purpose: What the treewidth monitor says of the graphs that calls reach. No file has a second link before a
  call of link makes one, so the graphs of the runs without link have width two at most, blocks apart. With
  links the number of links of each file bounds nothing: files of two links each, one for every pair of
  directories, join all directories with each other.
Trusted boundary: none
Main exports: TypeGraph.LinksLE, Op.IsLink, Run.singleLinks, computeTreewidth_unlinked,
  computeTreewidth_oneHome
-/
import SotFs.Proofs.Skeleton
import SotFs.Proofs.EditFrames

namespace SotFs

open Std (ExtTreeMap ExtTreeSet)
open Foundation

/-- No file has more than `L` links. -/
def TypeGraph.LinksLE (g : TypeGraph) (L : Nat) : Prop :=
  ∀ s i, g.inodes.data s = some i → i.vtype ≠ .directory → i.linkCount ≤ L

/-- A call of link. -/
def Op.IsLink : Op → Prop
  | .link .. => True
  | _ => False

instance : (op : Op) → Decidable op.IsLink
  | .link .. => .isTrue trivial
  | .createFile .. | .mkdir .. | .rmdir .. | .unlink .. | .rename .. | .symlink .. | .writeBlock .. => .isFalse id
  | .writeData .. | .truncate .. | .chmod .. | .chown .. | .setxattr .. | .removexattr .. => .isFalse id
  | .setacl .. | .setQuota .. => .isFalse id

section Links

variable {link free : TypeGraph → InodeId → Prop} {g g' : TypeGraph}

/-- An edit leaves a file with a single link if it names none once more. -/
theorem Edit.singleLinks (h : Inv g) (hsingle : g.LinksLE 1)
    (hedit : Edit (fun _ _ => False) free g g') : g'.LinksLE 1 := by
  have hmodify : ∀ {t : InodeId} {f : Inode → Inode}, (∀ i, g.inodes.data (idToArena t) = some i →
      (f i).vtype = i.vtype ∧ (i.vtype ≠ .directory → i.linkCount ≤ 1 → (f i).linkCount ≤ 1)) →
      ∀ {s i}, (g.inodes.modify (idToArena t) f).data s = some i → i.vtype ≠ .directory →
        i.linkCount ≤ 1 := by
    intro t f hf s i hs hkind
    rw [Arena.data_modify, Function.update_apply] at hs
    split at hs
    · obtain ⟨j, hj, rfl⟩ := Option.map_eq_some_iff.mp hs
      obtain ⟨hsame, hle⟩ := hf j hj
      rw [hsame] at hkind
      exact hle hkind (hsingle _ j hj hkind)
    · exact hsingle s i hs hkind
  have hnew : ∀ {inode : Inode}, (inode.vtype ≠ .directory → inode.linkCount ≤ 1) →
      ∀ {s i}, Function.update g.inodes.data g.nextInode (some inode) s = some i →
        i.vtype ≠ .directory → i.linkCount ≤ 1 := by
    intro inode hinode s i hs hkind
    rw [Function.update_apply] at hs
    split at hs
    · cases hs
      exact hinode hkind
    · exact hsingle s i hs hkind
  have hold : ∀ {t : Nat} {s i}, Function.update g.inodes.data t none s = some i →
      i.vtype ≠ .directory → i.linkCount ≤ 1 := by
    intro t s i hs hkind
    rw [Function.update_apply] at hs
    split at hs
    · cases hs
    · exact hsingle s i hs hkind
  cases hedit with
  | enterInode hi _ _ _ _ _ _ hlink =>
      intro s i hs
      rw [h.enterInode_inodes _ _ _ hi] at hs
      exact hnew (fun _ => hlink.le) hs
  | enterDir hi _ _ _ _ _ _ hkind =>
      intro s i hs
      rw [h.enterDir_inodes _ _ _ _ hi] at hs
      exact hnew (fun hne => absurd hkind hne) hs
  | enterLink _ _ _ _ _ _ hlink => exact hlink.elim
  | @dropName i e d t n he hn ht hkind =>
      intro s j hs
      rw [h.dropName_eq he] at hs
      refine hmodify ?_ hs
      intro i' hi'
      refine ⟨rfl, fun _ hle => ?_⟩
      have hremove := linksTo_remove_card (s := idToArena t) (h.entry_lt he) he
      rw [if_pos (show CountsFor (idToArena t) (d, t, n) from ⟨rfl, hn.2⟩), ← h.links hi'] at hremove
      have hone : i'.linkCount = 1 := by omega
      change decrement32 i'.linkCount ≤ 1
      rw [hone]
      decide
  | dropLastName he hn ht hkind =>
      intro s i hs
      rw [h.dropLastName_inodes he hn ht hkind] at hs
      exact hold hs
  | dropDir he _ htd =>
      intro s i hs
      rw [h.dropDir_inodes he htd] at hs
      exact hold hs
  | @renameEntry e d t n n' =>
      obtain ⟨_, _, heq⟩ := renameContainsEdge_frame (g := g) e n'
      rw [heq]
      exact hsingle
  | @moveFileEntry i e p t n q qi n' =>
      obtain ⟨_, _, _, _, heq⟩ := moveEntry_frame (g := g) e p t q n'
      rw [heq]
      exact hsingle
  | @moveDirEntry e p t n q qi n' m =>
      obtain ⟨_, _, _, _, heq⟩ := moveEntry_frame (g := g) e p t q n'
      rw [heq]
      exact hsingle
  | modifyInode t hf =>
      intro s i hs
      refine hmodify ?_ hs
      intro j _
      exact ⟨(hf j).2.1, fun _ hle => (hf j).2.2.trans_le hle⟩
  | dropXattr he =>
      rw [h.dropXattr_eq he]
      exact hsingle
  | dropGrants t =>
      obtain ⟨_, _, _, _, heq⟩ := dropGrants_frame (g := g) t
      rw [heq]
      exact hsingle
  | attachBlock | attachXattr | modifyXattr | attachGrant | sides => exact hsingle

theorem singleLinks_new (now : Timestamp) : (TypeGraph.new now).LinksLE 1 := by
  intro s i hs hkind
  have hdir : (TypeGraph.new now).kinds s = some i.vtype := Arena.view_eq_some.mpr ⟨i, hs, rfl⟩
  rw [new_kinds, Function.update_apply] at hdir
  split at hdir
  · exact absurd (Option.some.inj hdir).symm hkind
  · cases hdir

/-- Along the runs without link a file has one link at most. -/
theorem Run.singleLinks (hrun : Run (fun g op g' => InCapacityCall g op g' ∧ ¬ op.IsLink) g) :
    Inv g ∧ g.LinksLE 1 := by
  refine hrun.keep (fun _ _ => False) (fun _ _ => True) singleLinks_new
    (fun h hsingle hedit => hedit.singleLinks h hsingle) ?_
  rintro g op g' ⟨hcall, hnolink⟩
  refine ⟨hcall, ?_, fun _ _ => trivial⟩
  intro t hlinks
  cases op with
  | link => exact hnolink trivial
  | _ => exact hlinks

end Links

/-! ### The conditions can be checked -/

section Checks

/-- A property of the occupied slots is checked on their list. -/
theorem Arena.forall_iter {T : Type} {CAPACITY : Nat} {a : Arena T CAPACITY} {p : Nat → T → Prop} :
    (∀ entry ∈ a.iter, p entry.1 entry.2) ↔ ∀ s v, a.data s = some v → p s v := by
  constructor
  · intro hall s v hv
    exact hall (s, v) (Arena.mem_iter.mpr hv)
  · rintro hall ⟨s, v⟩ hmem
    exact hall s v (Arena.mem_iter.mp hmem)

/-- The same for what a view shows. -/
theorem Arena.forall_view {T β : Type} {CAPACITY : Nat} {a : Arena T CAPACITY} {f : T → Option β}
    {p : β → Prop} :
    (∀ entry ∈ a.iter, ∀ w ∈ f entry.2, p w) ↔ ∀ s w, a.view f s = some w → p w := by
  rw [Arena.forall_iter (p := fun _ v => ∀ w ∈ f v, p w)]
  constructor
  · intro hall s w hw
    obtain ⟨v, hv, hf⟩ := Arena.view_eq_some.mp hw
    exact hall s v hv w hf
  · intro hall s v hv w hf
    exact hall s w (Arena.view_eq_some.mpr ⟨v, hv, hf⟩)

variable (g : TypeGraph)

instance (L : Nat) : Decidable (g.LinksLE L) := decidable_of_iff _ Arena.forall_iter

instance : Decidable g.BlocksApart :=
  decidable_of_iff (∀ entry ∈ g.edges.iter, ∀ w ∈ entry.2.pointer, (g.inodes.data w.1).isSome →
      (g.inodes.data w.2.1).isSome → w.1 = w.2.1) <|
    (Arena.forall_view (f := Edge.pointer) (p := fun w => (g.inodes.data w.1).isSome →
      (g.inodes.data w.2.1).isSome → w.1 = w.2.1)).trans
      ⟨fun hall {x t b o} => hall x (t, b, o), fun hall x w => hall (x := x) (o := w.2.2)⟩

instance : Decidable g.OneHome :=
  decidable_of_iff (∀ entry ∈ g.edges.iter, ∀ w ∈ entry.2.entry, ∀ entry' ∈ g.edges.iter,
      ∀ w' ∈ entry'.2.entry, w.2.1 = w'.2.1 → g.dirForInode w.2.1 = none → w.1 = w'.1) <| by
    refine (Arena.forall_view (f := Edge.entry) (p := fun w => ∀ entry' ∈ g.edges.iter,
      ∀ w' ∈ entry'.2.entry, w.2.1 = w'.2.1 → g.dirForInode w.2.1 = none → w.1 = w'.1)).trans ?_
    constructor
    · intro hall e e' t d d' n n' he he' hfile
      exact (Arena.forall_view (f := Edge.entry)).mp (hall e _ he) e' _ he' rfl hfile
    · intro hall e w he
      refine (Arena.forall_view (f := Edge.entry)).mpr ?_
      rintro e' w' he' heq hfile
      obtain ⟨d, t, n⟩ := w
      obtain ⟨d', t', n'⟩ := w'
      cases heq
      exact hall he he' hfile

end Checks

/-! ### What the monitor reports -/

/-- No alarm without hard links: on every graph that the calls other than link reach, with the blocks
    apart, compute_treewidth returns two at most. -/
theorem computeTreewidth_unlinked {g : TypeGraph}
    (hrun : Run (fun g op g' => InCapacityCall g op g' ∧ ¬ op.IsLink) g) (happart : g.BlocksApart) :
    computeTreewidth g ≤ 2 ∧ (checkTreewidth g 6).withinLimit = true := by
  obtain ⟨hinv, hsingle⟩ := hrun.singleLinks
  have hle := hinv.computeTreewidth_le_two happart (hinv.oneHome (hsingle _ _))
  exact ⟨hle, decide_eq_true (hle.trans (by decide))⟩

/-- A file with an ACL and a block whose id is that of a removed file. -/
theorem computeTreewidth_unlinked_small :
    let g := (TypeGraph.new 0).calls (fun _ => 0)
      [.createFile 1 "a" 0 0 .fileDefault, .writeBlock 2 0 0 8, .unlink 1 "a",
        .createFile 1 "b" 0 0 .fileDefault, .writeBlock 3 0 0 8, .setacl 3 [⟨.user, 7, ⟨6⟩⟩]]
    computeTreewidth g ≤ 2 ∧ (checkTreewidth g 6).withinLimit = true :=
  computeTreewidth_unlinked (Run.calls _ (.new 0) (by decide)) (by decide +kernel)

/-- Four blocks whose ids are those of the root and of three files make a clique of four of them. -/
theorem computeTreewidth_unlinked_three :
    let g := (TypeGraph.new 0).calls (fun _ => 0)
      [.createFile 1 "a" 0 0 .fileDefault, .createFile 1 "b" 0 0 .fileDefault,
        .createFile 1 "c" 0 0 .fileDefault, .writeBlock 2 0 0 8, .writeBlock 3 0 0 8,
        .writeBlock 4 0 0 8, .writeBlock 2 0 0 8]
    Run (fun g op g' => InCapacityCall g op g' ∧ ¬ op.IsLink) g ∧ computeTreewidth g = 3 :=
  ⟨Run.calls _ (.new 0) (by decide), by decide +kernel⟩

/-- Links within one directory: however many links files have, if those of each file are in one
    directory, and so if each has only one, compute_treewidth returns two at most. -/
theorem computeTreewidth_oneHome {g : TypeGraph} (hg : Reachable g) (happart : g.BlocksApart) {L : Nat}
    (hL : 1 ≤ L) (hlinks : g.LinksLE L) (hhome : L = 1 ∨ g.OneHome) :
    computeTreewidth g ≤ 2 ∧ computeTreewidth g ≤ L + 6 := by
  have hone : g.OneHome := by
    rcases hhome with rfl | hone
    · exact hg.inv.oneHome (hlinks _ _)
    · exact hone
  have hle := hg.inv.computeTreewidth_le_two happart hone
  exact ⟨hle, by omega⟩

/-- A file with two names in the root. -/
theorem computeTreewidth_oneHome_pair :
    let g := (TypeGraph.new 0).calls (fun _ => 0)
      [.createFile 1 "a" 0 0 .fileDefault, .link 1 "b" 2, .mkdir 1 "d" 0 0 .dirDefault]
    computeTreewidth g ≤ 2 ∧ computeTreewidth g ≤ 2 + 6 :=
  computeTreewidth_oneHome (Run.calls _ (.new 0) (by decide)) (by decide +kernel) (by decide)
    (by decide +kernel) (.inr (by decide +kernel))

/-- `m` directories in the root. -/
def dirCalls (m : Nat) : List Op := (List.range m).map fun i => .mkdir 1 (toString i) 0 0 .dirDefault

/-- For every two of `m` directories a file with a name in each. -/
def linkCalls (m : Nat) : List Op :=
  ((List.range m).flatMap fun i => (List.range i).map fun j => (i, j)).zipIdx.flatMap
    fun ((i, j), k) =>
      [.createFile (i + 2) (toString j) 0 0 .fileDefault, .link (j + 2) (toString i) (m + 2 + k)]

/-- Eight directories of which every two share a file: two links for each file, and a width of nine. -/
theorem computeTreewidth_shared :
    let g := (TypeGraph.new 0).calls (fun _ => 0) (dirCalls 8 ++ linkCalls 8)
    Reachable g ∧ g.LinksLE 2 ∧ computeTreewidth g = 9 := by
  refine ⟨Run.calls _ (.new 0) ?_, ?_, ?_⟩
  · decide +kernel
  · decide +kernel
  · decide +kernel

end SotFs
