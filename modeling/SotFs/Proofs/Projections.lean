/-
Module: SotFs.Proofs.Projections
Layer: Proofs
Purpose: What the restricted projection shows. The walk visits the directories below its root once each, so
  the view is read off them. The walk does not follow "..", but it shows where ".." leads: the projection
  keeps to its subtree, and depends on nothing else, exactly when every ".." in it (and every directory's
  own inode) leads back into it, which in a directory tree is so for the root directory alone.
Trusted boundary: none
Main exports: TypeGraph.SeesDir, TypeGraph.InSubtree, TypeGraph.KeepsInside, SameSubtree, Confined,
  restrict_confines
-/
import SotFs.Core.Deception
import SotFs.Proofs.Preservation
import SotFs.Proofs.Subtrees

namespace SotFs

open Std (ExtTreeMap ExtTreeSet)
open Relation Foundation

namespace TypeGraph

/-- `c` is `r` or a directory below it, by the entries that lead to directories, "." and ".." left out. -/
def SeesDir (g : TypeGraph) (r c : DirId) : Prop := ReflTransGen (fun a b => b ∈ g.childDirs a) r c

/-- The record of directory `c` names inode `t` as its own. -/
def OwnInode (g : TypeGraph) (c : DirId) (t : InodeId) : Prop :=
  ∃ dir, g.getDir c = some dir ∧ dir.inodeId = t

/-- The inode of `r`, or one that a name other than ".." leads to from `r` or a directory below. -/
def InSubtree (g : TypeGraph) (r : DirId) (t : InodeId) : Prop :=
  g.OwnInode r t ∨ ∃ c n, g.SeesDir r c ∧ n ≠ ".." ∧ (n, t) ∈ g.shownEntries c

/-- No ".." of the subtree and no directory record in it names a live inode outside. -/
structure KeepsInside (g : TypeGraph) (r : DirId) : Prop where
  own : ∀ c t, g.SeesDir r c → g.OwnInode c t → (g.getInode t).isSome → g.InSubtree r t
  dotdot : ∀ c t, g.SeesDir r c → ("..", t) ∈ g.shownEntries c → g.InSubtree r t

end TypeGraph

/-- The graphs agree on the subtree of `r`: on its directories, on their entries and on its inodes. -/
structure SameSubtree (g g' : TypeGraph) (r : DirId) : Prop where
  dirs : ∀ c, g.SeesDir r c →
    g'.getDir c = g.getDir c ∧ ∀ t, g.OwnInode c t → g'.getInode t = g.getInode t
  entries : ∀ c, g.SeesDir r c →
    g'.dirContains.contains c = g.dirContains.contains c ∧ g'.shownEntries c = g.shownEntries c
  inodes : ∀ t, g.InSubtree r t → g'.getInode t = g.getInode t ∧ g'.dirForInode t = g.dirForInode t

/-- The projection shows the subtree of `r`, no entry of it leads out, and it is the same for every graph
    that agrees on the subtree. -/
structure Confined (g : TypeGraph) (r : DirId) : Prop where
  visible : ∀ t i, (projectRestrict g r).visibleInodes[t]? = some i ↔
    g.InSubtree r t ∧ g.getInode t = some i
  listed : ∀ (c : DirId) (entries : List (String × InodeId)) n t,
    (projectRestrict g r).visibleEntries[c]? = some entries → (n, t) ∈ entries → g.InSubtree r t
  independent : ∀ g', SameSubtree g g' r → projectRestrict g' r = projectRestrict g r

section Walk

variable {g g' : TypeGraph} {r c : DirId} {t : InodeId} {n : String}

theorem TypeGraph.mem_shownEntries :
    (n, t) ∈ g.shownEntries c ↔ (n, t) ∈ g.listDir c ∧ (g.getInode t).isSome = true := by
  rw [TypeGraph.shownEntries, List.mem_filter]

/-- The directories that entries lead to, read off the list of the entries. -/
theorem TypeGraph.mem_childDirs_iff {p : DirId} :
    c ∈ g.childDirs p ↔ ∃ n t i, (n, t) ∈ g.shownEntries p ∧ ¬ (n = "." ∨ n = "..") ∧
      g.getInode t = some i ∧ i.vtype = .directory ∧ g.dirForInode t = some c := by
  unfold TypeGraph.childDirs
  rw [List.mem_filterMap]
  constructor
  · rintro ⟨⟨e, t, n⟩, hmem, hsome⟩
    split at hsome
    · cases hsome
    · rename_i hn
      cases hi : g.getInode t with
      | none =>
          simp only [hi] at hsome
          cases hsome
      | some i =>
          simp only [hi] at hsome
          split at hsome
          · rename_i hkind
            refine ⟨n, t, i, TypeGraph.mem_shownEntries.mpr ⟨?_, by rw [hi]; rfl⟩, hn, hi, hkind, hsome⟩
            exact List.mem_map.mpr ⟨(e, t, n), hmem, rfl⟩
          · cases hsome
  · rintro ⟨n, t, i, hmem, hn, hi, hkind, hdir⟩
    obtain ⟨⟨e, t', n'⟩, hentry, heq⟩ := List.mem_map.mp (TypeGraph.mem_shownEntries.mp hmem).1
    cases heq
    refine ⟨(e, t', n'), hentry, ?_⟩
    rw [if_neg hn]
    simp only [hi, if_pos hkind, hdir]

/-- The loop of the projection visits the directories of the subtree. -/
theorem projectRestrict_visits (g : TypeGraph) (r : DirId) :
    ∃ order : List DirId, (∀ c, c ∈ order ↔ g.SeesDir r c) ∧
      projectRestrict g r = order.foldl (fun view c => restrictVisit g c view)
        ⟨∅, ∅, ∅, ∅, "restrict(root=" ++ toString r ++ ")"⟩ := by
  have hdistinct : g.dirContains.keys.Nodup := by
    refine ExtTreeMap.distinct_keys.imp ?_
    rintro a b hne rfl
    exact hne Std.ReflCmp.compare_self
  have hfuel : 1 + ∑ d ∈ g.dirContains.keys.toFinset, (g.childDirs d).length ≤
      1 + (g.dirContains.keys.map fun d => (g.childDirs d).length).sum := by
    rw [List.sum_toFinset _ hdistinct]
  exact Worklist.drain_reaches (fun d => mem_keys_of_childDirs) hfuel r _

/-- Showing an inode sets what the view says of it. -/
theorem ProjectedView.showInode_visible (view : ProjectedView) {id : InodeId} :
    (view.showInode g id).visibleInodes[t]? =
      if id = t ∧ (g.getInode t).isSome then g.getInode t else view.visibleInodes[t]? := by
  unfold ProjectedView.showInode
  cases hi : g.getInode id with
  | none =>
      rw [if_neg]
      rintro ⟨rfl, hsome⟩
      rw [hi] at hsome
      cases hsome
  | some inode =>
      simp only [ExtTreeMap.getElem?_insert, compare_eq_iff_eq]
      by_cases hid : id = t
      · subst hid
        rw [if_pos rfl, hi, if_pos ⟨rfl, rfl⟩]
      · rw [if_neg hid, if_neg fun hboth => hid hboth.1]

theorem ProjectedView.showInode_entries (view : ProjectedView) {id : InodeId} :
    (view.showInode g id).visibleEntries = view.visibleEntries := by
  unfold ProjectedView.showInode
  split <;> rfl

/-- A directory without an entry set has no entries. -/
theorem TypeGraph.listDir_of_not_contains (hc : ¬ g.dirContains.contains c = true) : g.listDir c = [] := by
  have hnone : g.dirContains[c]? = none := ExtTreeMap.getElem?_eq_none hc
  have hempty : (SetIndex.members g.dirContains c).toList = [] := by
    rw [List.eq_nil_iff_forall_not_mem]
    intro x hx
    exact SetIndex.not_mem_members_of_none hnone x (ExtTreeSet.mem_toList.mp hx)
  rw [TypeGraph.listDir, TypeGraph.dirEntries, hempty]
  rfl

/-- The inodes that a visit of `c` shows: its own and the targets of its entries. -/
def TypeGraph.ShownFrom (g : TypeGraph) (c : DirId) (t : InodeId) : Prop :=
  (g.OwnInode c t ∨ ∃ n, (n, t) ∈ g.listDir c) ∧ (g.getInode t).isSome

/-- The first half of a visit: the inode of the directory itself. -/
theorem ProjectedView.showOwn_visible (view : ProjectedView) :
    ((g.OwnInode c t ∧ (g.getInode t).isSome = true) →
      (view.showOwn g c).visibleInodes[t]? = g.getInode t) ∧
    (¬ (g.OwnInode c t ∧ (g.getInode t).isSome = true) →
      (view.showOwn g c).visibleInodes[t]? = view.visibleInodes[t]?) := by
  unfold ProjectedView.showOwn
  cases hdir : g.getDir c with
  | none =>
      refine ⟨?_, fun _ => rfl⟩
      rintro ⟨⟨dir, hsome, _⟩, _⟩
      rw [hdir] at hsome
      cases hsome
  | some dir =>
      have hown : g.OwnInode c t ↔ dir.inodeId = t := by
        constructor
        · rintro ⟨dir', hsome, heq⟩
          rw [hdir] at hsome
          cases hsome
          exact heq
        · exact fun heq => ⟨dir, hdir, heq⟩
      simp only [ProjectedView.showInode_visible, hown]
      exact ⟨fun hshown => if_pos hshown, fun hnot => if_neg hnot⟩

theorem ProjectedView.showOwn_entries (view : ProjectedView) :
    (view.showOwn g c).visibleEntries = view.visibleEntries := by
  unfold ProjectedView.showOwn
  split
  · exact view.showInode_entries
  · rfl

/-- A visit and an inode: the visit shows it, or leaves what the view says of it. -/
theorem restrictVisit_visible (view : ProjectedView) :
    (g.ShownFrom c t → (restrictVisit g c view).visibleInodes[t]? = g.getInode t) ∧
    (¬ g.ShownFrom c t → (restrictVisit g c view).visibleInodes[t]? = view.visibleInodes[t]?) := by
  obtain ⟨hown, hother⟩ := view.showOwn_visible (g := g) (c := c) (t := t)
  unfold restrictVisit
  by_cases hc : g.dirContains.contains c = true
  · rw [if_pos hc]
    obtain ⟨hlisted, hunlisted⟩ := Worklist.foldl_read
      (fun (entry : String × InodeId) (view : ProjectedView) => view.showInode g entry.2)
      (fun view => view.visibleInodes[t]?)
      (fun entry => entry.2 = t ∧ (g.getInode t).isSome = true) (v := g.getInode t)
      (fun view entry hset => by rw [ProjectedView.showInode_visible, if_pos hset])
      (fun view entry hset => by rw [ProjectedView.showInode_visible, if_neg hset]) (g.listDir c) (view.showOwn g c)
    have hmem : (∃ entry ∈ g.listDir c, entry.2 = t ∧ (g.getInode t).isSome = true) ↔
        (∃ n, (n, t) ∈ g.listDir c) ∧ (g.getInode t).isSome = true := by
      constructor
      · rintro ⟨⟨n, _⟩, hentry, rfl, hlive⟩
        exact ⟨⟨n, hentry⟩, hlive⟩
      · rintro ⟨⟨n, hentry⟩, hlive⟩
        exact ⟨(n, t), hentry, rfl, hlive⟩
    refine ⟨?_, ?_⟩
    · rintro ⟨hshown, hlive⟩
      by_cases hentry : ∃ n, (n, t) ∈ g.listDir c
      · exact hlisted (hmem.mpr ⟨hentry, hlive⟩)
      · refine (hunlisted fun entry hin hset => ?_).trans (hown ⟨hshown.resolve_right hentry, hlive⟩)
        exact hentry (hmem.mp ⟨entry, hin, hset⟩).1
    · intro hnot
      refine (hunlisted fun entry hin hset => ?_).trans
        (hother fun hboth => hnot ⟨.inl hboth.1, hboth.2⟩)
      exact hnot ⟨.inr (hmem.mp ⟨entry, hin, hset⟩).1, hset.2⟩
  · rw [if_neg hc]
    have hshown : g.ShownFrom c t ↔ g.OwnInode c t ∧ (g.getInode t).isSome = true := by
      unfold TypeGraph.ShownFrom
      rw [TypeGraph.listDir_of_not_contains hc]
      simp only [List.not_mem_nil, exists_false, or_false]
    rw [hshown]
    exact ⟨hown, hother⟩

/-- A visit and a directory: the visit lists it, or leaves what the view says of it. -/
theorem restrictVisit_entries (view : ProjectedView) (d : DirId) :
    (c = d ∧ g.dirContains.contains d = true →
      (restrictVisit g c view).visibleEntries[d]? = some (g.shownEntries d)) ∧
    (¬ (c = d ∧ g.dirContains.contains d = true) →
      (restrictVisit g c view).visibleEntries[d]? = view.visibleEntries[d]?) := by
  have hfold : ∀ (entries : List (String × InodeId)) (view : ProjectedView),
      (entries.foldl (fun view entry => view.showInode g entry.2) view).visibleEntries =
        view.visibleEntries := by
    intro entries
    induction entries with
    | nil => exact fun _ => rfl
    | cons entry entries ih => exact fun view => (ih _).trans view.showInode_entries
  unfold restrictVisit
  split
  · rename_i hc
    simp only [hfold, view.showOwn_entries, ExtTreeMap.getElem?_insert, compare_eq_iff_eq]
    refine ⟨?_, ?_⟩
    · rintro ⟨rfl, _⟩
      rw [if_pos rfl]
    · intro hnot
      rw [if_neg]
      rintro rfl
      exact hnot ⟨rfl, hc⟩
  · rename_i hc
    refine ⟨?_, fun _ => by rw [view.showOwn_entries]⟩
    rintro ⟨rfl, hd⟩
    exact absurd hd hc

/-- The inodes the projection shows: those that a directory of the subtree shows. -/
theorem projectRestrict_visible {i : Inode} :
    (projectRestrict g r).visibleInodes[t]? = some i ↔
      (∃ c, g.SeesDir r c ∧ g.ShownFrom c t) ∧ g.getInode t = some i := by
  obtain ⟨order, horder, heq⟩ := projectRestrict_visits g r
  obtain ⟨hshown, hnot⟩ := Worklist.foldl_read (fun c view => restrictVisit g c view)
    (fun view => view.visibleInodes[t]?) (fun c => g.ShownFrom c t) (v := g.getInode t)
    (fun view c => (restrictVisit_visible view).1) (fun view c => (restrictVisit_visible view).2) order
    ⟨∅, ∅, ∅, ∅, "restrict(root=" ++ toString r ++ ")"⟩
  rw [heq]
  by_cases hex : ∃ c ∈ order, g.ShownFrom c t
  · have hsees : ∃ c, g.SeesDir r c ∧ g.ShownFrom c t := by
      obtain ⟨c, hc, hfrom⟩ := hex
      exact ⟨c, (horder c).mp hc, hfrom⟩
    rw [hshown hex]
    exact ⟨fun hi => ⟨hsees, hi⟩, fun hboth => hboth.2⟩
  · rw [hnot fun c hc hfrom => hex ⟨c, hc, hfrom⟩]
    refine ⟨fun hi => ?_, ?_⟩
    · rw [ExtTreeMap.getElem?_empty] at hi
      cases hi
    · rintro ⟨⟨c, hc, hfrom⟩, _⟩
      exact absurd ⟨c, (horder c).mpr hc, hfrom⟩ hex

/-- The directories the projection lists: those of the subtree, with the entries that lead to inodes. -/
theorem projectRestrict_entries {entries : List (String × InodeId)} :
    (projectRestrict g r).visibleEntries[c]? = some entries ↔
      g.SeesDir r c ∧ g.dirContains.contains c = true ∧ entries = g.shownEntries c := by
  obtain ⟨order, horder, heq⟩ := projectRestrict_visits g r
  obtain ⟨hshown, hnot⟩ := Worklist.foldl_read (fun c view => restrictVisit g c view)
    (fun view => view.visibleEntries[c]?)
    (fun d => d = c ∧ g.dirContains.contains c = true) (v := some (g.shownEntries c))
    (fun view d => (restrictVisit_entries view c).1) (fun view d => (restrictVisit_entries view c).2) order
    ⟨∅, ∅, ∅, ∅, "restrict(root=" ++ toString r ++ ")"⟩
  rw [heq]
  by_cases hex : ∃ d ∈ order, d = c ∧ g.dirContains.contains c = true
  · rw [hshown hex]
    obtain ⟨d, hd, rfl, hcontains⟩ := hex
    rw [Option.some.injEq, eq_comm]
    exact ⟨fun h => ⟨(horder d).mp hd, hcontains, h⟩, fun h => h.2.2⟩
  · rw [hnot fun d hd hsets => hex ⟨d, hd, hsets⟩]
    refine ⟨fun hi => ?_, ?_⟩
    · rw [ExtTreeMap.getElem?_empty] at hi
      cases hi
    · rintro ⟨hc, hcontains, _⟩
      exact absurd ⟨c, (horder c).mpr hc, rfl, hcontains⟩ hex

/-- What the walk does not write. -/
def ProjectedView.rest (view : ProjectedView) :
    ExtTreeMap InodeId (List UInt8) × ExtTreeMap InodeId InodeId × String :=
  (view.fabricatedData, view.redirects, view.policy)

theorem ProjectedView.showInode_rest (view : ProjectedView) {id : InodeId} :
    (view.showInode g id).rest = view.rest := by
  unfold ProjectedView.showInode
  split <;> rfl

theorem restrictVisit_rest (view : ProjectedView) : (restrictVisit g c view).rest = view.rest := by
  have hown : (view.showOwn g c).rest = view.rest := by
    unfold ProjectedView.showOwn
    split
    · exact view.showInode_rest
    · rfl
  have hfold : ∀ (entries : List (String × InodeId)) (view : ProjectedView),
      (entries.foldl (fun view entry => view.showInode g entry.2) view).rest = view.rest := by
    intro entries
    induction entries with
    | nil => exact fun _ => rfl
    | cons entry entries ih => exact fun view => (ih _).trans view.showInode_rest
  unfold restrictVisit
  split
  · exact (hfold (g.listDir c) _).trans hown
  · exact hown

/-- Apart from what it shows, the projection is determined by its root. -/
theorem projectRestrict_rest (g : TypeGraph) (r : DirId) :
    (projectRestrict g r).rest = (∅, ∅, "restrict(root=" ++ toString r ++ ")") := by
  obtain ⟨order, _, heq⟩ := projectRestrict_visits g r
  rw [heq]
  refine (Worklist.foldl_read (fun c view => restrictVisit g c view)
    ProjectedView.rest (fun _ => False) (v := (∅, ∅, ""))
    (fun _ _ hset => hset.elim) (fun view c _ => restrictVisit_rest view) order _).2 fun _ _ hset => hset

/-- Two projections that show the same inodes and the same entries are the same. -/
theorem projectRestrict_ext
    (hinodes : ∀ (t : InodeId) (i : Inode), (projectRestrict g' r).visibleInodes[t]? = some i ↔
      (projectRestrict g r).visibleInodes[t]? = some i)
    (hentries : ∀ (c : DirId) (entries : List (String × InodeId)),
      (projectRestrict g' r).visibleEntries[c]? = some entries ↔
        (projectRestrict g r).visibleEntries[c]? = some entries) :
    projectRestrict g' r = projectRestrict g r := by
  have hrest := (projectRestrict_rest g' r).trans (projectRestrict_rest g r).symm
  cases hview' : projectRestrict g' r with
  | mk inodes' entries' fabricated' redirects' policy' =>
      cases hview : projectRestrict g r with
      | mk inodes entries fabricated redirects policy =>
          rw [hview, hview'] at hinodes hentries hrest
          cases hrest
          have hsame : inodes' = inodes := ExtTreeMap.ext_getElem? fun t => Option.ext (hinodes t)
          have hlists : entries' = entries := ExtTreeMap.ext_getElem? fun c => Option.ext (hentries c)
          rw [hsame, hlists]

end Walk

/-! ### Confinement -/

section Confinement

variable {g g' : TypeGraph} {r c : DirId} {t : InodeId}

/-- With the border closed, what a directory of the subtree shows is in the subtree. -/
theorem TypeGraph.KeepsInside.inSubtree (hkeeps : g.KeepsInside r) (hc : g.SeesDir r c)
    (hfrom : g.ShownFrom c t) : g.InSubtree r t := by
  obtain ⟨hown | ⟨n, hlisted⟩, hlive⟩ := hfrom
  · exact hkeeps.own c t hc hown hlive
  · have hshown : (n, t) ∈ g.shownEntries c := TypeGraph.mem_shownEntries.mpr ⟨hlisted, hlive⟩
    by_cases hn : n = ".."
    · subst hn
      exact hkeeps.dotdot c t hc hshown
    · exact .inr ⟨c, n, hc, hn, hshown⟩

/-- Graphs that agree on the subtree have the same directories in it. -/
theorem SameSubtree.seesDir_iff (hsame : SameSubtree g g' r) : g'.SeesDir r c ↔ g.SeesDir r c := by
  have hchild : ∀ {a b}, g.SeesDir r a → (b ∈ g'.childDirs a ↔ b ∈ g.childDirs a) := by
    intro a b ha
    rw [TypeGraph.mem_childDirs_iff, TypeGraph.mem_childDirs_iff, (hsame.entries a ha).2]
    refine exists_congr fun n => exists_congr fun t => exists_congr fun i => and_congr_right fun hmem =>
      and_congr_right fun hn => ?_
    have hin : g.InSubtree r t := .inr ⟨a, n, ha, fun heq => hn (.inr heq), hmem⟩
    rw [(hsame.inodes t hin).1, (hsame.inodes t hin).2]
  constructor
  · intro hc
    induction hc with
    | refl => exact .refl
    | tail _ hstep ih => exact ih.tail ((hchild ih).mp hstep)
  · intro hc
    induction hc with
    | refl => exact .refl
    | tail hpath hstep ih => exact ih.tail ((hchild hpath).mpr hstep)

/-- With the border closed, graphs that agree on the subtree show the same inodes. -/
theorem SameSubtree.shown_iff (hsame : SameSubtree g g' r) (hkeeps : g.KeepsInside r)
    (hc : g.SeesDir r c) {i : Inode} :
    g'.ShownFrom c t ∧ g'.getInode t = some i ↔ g.ShownFrom c t ∧ g.getInode t = some i := by
  have hown : g'.OwnInode c t ↔ g.OwnInode c t := by
    unfold TypeGraph.OwnInode
    rw [(hsame.dirs c hc).1]
  have hfrom : ∀ {g₁ : TypeGraph}, g₁.ShownFrom c t ↔
      (g₁.OwnInode c t ∧ (g₁.getInode t).isSome = true) ∨ ∃ n, (n, t) ∈ g₁.shownEntries c := by
    intro g₁
    unfold TypeGraph.ShownFrom
    simp only [TypeGraph.mem_shownEntries]
    rw [or_and_right, exists_and_right]
  have hsub : g.ShownFrom c t → g'.getInode t = g.getInode t :=
    fun hshown => (hsame.inodes t (hkeeps.inSubtree hc hshown)).1
  constructor
  · rintro ⟨hshown, hi⟩
    have hshown' : g.ShownFrom c t := by
      rcases hfrom.mp hshown with ⟨ho, hlive⟩ | ⟨n, hmem⟩
      · have ho' := hown.mp ho
        rw [(hsame.dirs c hc).2 t ho'] at hlive
        exact hfrom.mpr (.inl ⟨ho', hlive⟩)
      · rw [(hsame.entries c hc).2] at hmem
        exact hfrom.mpr (.inr ⟨n, hmem⟩)
    exact ⟨hshown', (hsub hshown').symm.trans hi⟩
  · rintro ⟨hshown, hi⟩
    refine ⟨?_, (hsub hshown).trans hi⟩
    rcases hfrom.mp hshown with ⟨ho, hlive⟩ | ⟨n, hmem⟩
    · rw [← (hsame.dirs c hc).2 t ho] at hlive
      exact hfrom.mpr (.inl ⟨hown.mpr ho, hlive⟩)
    · rw [← (hsame.entries c hc).2] at hmem
      exact hfrom.mpr (.inr ⟨n, hmem⟩)

/-- The projection keeps to the subtree exactly when its border is closed. -/
theorem confined_iff : Confined g r ↔ g.KeepsInside r := by
  have hvisible : ∀ {c t}, g.SeesDir r c → g.ShownFrom c t →
      ∃ i, (projectRestrict g r).visibleInodes[t]? = some i := by
    intro c t hc hshown
    obtain ⟨i, hi⟩ := Option.isSome_iff_exists.mp hshown.2
    exact ⟨i, projectRestrict_visible.mpr ⟨⟨c, hc, hshown⟩, hi⟩⟩
  constructor
  · intro hconf
    refine ⟨?_, ?_⟩
    · intro c t hc hown hlive
      obtain ⟨i, hi⟩ := hvisible hc ⟨.inl hown, hlive⟩
      exact ((hconf.visible t i).mp hi).1
    · intro c t hc hmem
      obtain ⟨hlisted, hlive⟩ := TypeGraph.mem_shownEntries.mp hmem
      obtain ⟨i, hi⟩ := hvisible hc ⟨.inr ⟨"..", hlisted⟩, hlive⟩
      exact ((hconf.visible t i).mp hi).1
  · intro hkeeps
    refine ⟨?_, ?_, ?_⟩
    · intro t i
      rw [projectRestrict_visible]
      constructor
      · rintro ⟨⟨c, hc, hshown⟩, hi⟩
        exact ⟨hkeeps.inSubtree hc hshown, hi⟩
      · rintro ⟨hin, hi⟩
        have hlive : (g.getInode t).isSome = true := Option.isSome_iff_exists.mpr ⟨i, hi⟩
        refine ⟨?_, hi⟩
        rcases hin with hown | ⟨c, n, hc, _, hmem⟩
        · exact ⟨r, .refl, .inl hown, hlive⟩
        · exact ⟨c, hc, .inr ⟨n, (TypeGraph.mem_shownEntries.mp hmem).1⟩, hlive⟩
    · intro c entries n t hentries hmem
      obtain ⟨hc, _, rfl⟩ := projectRestrict_entries.mp hentries
      obtain ⟨hlisted, hlive⟩ := TypeGraph.mem_shownEntries.mp hmem
      exact hkeeps.inSubtree hc ⟨.inr ⟨n, hlisted⟩, hlive⟩
    · intro g' hsame
      refine projectRestrict_ext (fun t i => ?_) fun c entries => ?_
      · rw [projectRestrict_visible, projectRestrict_visible, ← exists_and_right, ← exists_and_right]
        refine exists_congr fun c => ?_
        rw [hsame.seesDir_iff, and_assoc, and_assoc]
        exact and_congr_right fun hc => hsame.shown_iff hkeeps hc
      · rw [projectRestrict_entries, projectRestrict_entries, hsame.seesDir_iff]
        refine and_congr_right fun hc => ?_
        rw [(hsame.entries c hc).1, (hsame.entries c hc).2]

/-! ### In a directory tree -/

theorem Inv.seesDir_iff (h : Inv g) : g.SeesDir r c ↔ g.Within r c := by
  have hchild : (fun a b => b ∈ g.childDirs a) = g.shape.Child := by
    funext a b
    exact propext h.mem_childDirs
  rw [TypeGraph.SeesDir, hchild]
  rfl

theorem Inv.mem_shownEntries (h : Inv g) {n : String} :
    (n, t) ∈ g.shownEntries c ↔ ∃ e, g.entries e = some (c, t, n) := by
  rw [TypeGraph.mem_shownEntries, TypeGraph.listDir, List.mem_map]
  constructor
  · rintro ⟨⟨⟨e, t', n'⟩, hmem, heq⟩, _⟩
    cases heq
    exact ⟨e, h.mem_dirEntries.mp hmem⟩
  · rintro ⟨e, he⟩
    obtain ⟨i, hi⟩ := h.getInode_of_entry he
    exact ⟨⟨(e, t, n), h.mem_dirEntries.mpr he, rfl⟩, by rw [hi]; rfl⟩

theorem Inv.ownInode_iff (h : Inv g) {i : InodeId} (hc : g.dirInode c = some i) :
    g.OwnInode c t ↔ i = t := by
  unfold TypeGraph.OwnInode
  rw [h.getDir_eq hc]
  constructor
  · rintro ⟨dir, hdir, rfl⟩
    cases hdir
    rfl
  · exact fun heq => ⟨⟨c, i⟩, rfl, heq⟩

/-- Directories below a live one are live. -/
theorem TypeGraph.within_live {i : InodeId} (hr : g.dirInode r = some i) (hc : g.Within r c) :
    ∃ k, g.dirInode c = some k := by
  cases hc with
  | refl => exact ⟨i, hr⟩
  | tail _ hchild =>
      obtain ⟨_, _, k, hk, _⟩ := hchild
      exact ⟨k, hk⟩

/-- In a directory tree the border is closed around the root alone: the ".." of another directory leads to
    its parent, which is not below it. -/
theorem Inv.keepsInside_iff (h : Inv g) (hlive : g.LiveDir r) : g.KeepsInside r ↔ r = g.rootDir := by
  obtain ⟨ri, hr⟩ := h.liveDir_iff.mp hlive
  constructor
  · intro hkeeps
    by_contra hroot
    obtain ⟨p, pi, e, n, e', hp, hn, he, he'⟩ := h.shape.parent hr hroot
    have hchild : g.shape.Child p r := ⟨e, n, ri, hr, hn, he⟩
    have hcycle : ¬ g.Within r p := fun hback =>
      h.shape.tree.acyclic (h.shape.rooted hr) (TransGen.tail' hback hchild)
    rcases hkeeps.dotdot r pi .refl (h.mem_shownEntries.mpr ⟨e', he'⟩) with hown | ⟨c, m, hc, hm, hmem⟩
    · have heq : ri = pi := (h.ownInode_iff hr).mp hown
      subst heq
      exact hcycle (h.shape.dir_inj hr hp ▸ .refl)
    · rw [h.seesDir_iff] at hc
      obtain ⟨x, hx⟩ := h.mem_shownEntries.mp hmem
      by_cases hdot : m = "."
      · subst hdot
        have hcp : c = p := h.shape.dir_inj (h.shape.dot_tgt hx) hp
        exact hcycle (hcp ▸ hc)
      · exact hcycle (hc.tail ⟨x, m, pi, hp, ⟨hdot, hm⟩, hx⟩)
  · rintro rfl
    have hdot : ∀ {c i}, g.dirInode c = some i → g.InSubtree g.rootDir i := by
      intro c i hc
      obtain ⟨e, he⟩ := h.shape.dot hc
      exact .inr ⟨c, ".", h.seesDir_iff.mpr (h.shape.rooted hc), by decide, h.mem_shownEntries.mpr ⟨e, he⟩⟩
    refine ⟨?_, ?_⟩
    · intro c t hc hown _
      obtain ⟨i, hi⟩ := g.within_live hr (h.seesDir_iff.mp hc)
      rw [h.ownInode_iff hi] at hown
      exact hown ▸ hdot hi
    · intro c t hc hmem
      obtain ⟨e, he⟩ := h.mem_shownEntries.mp hmem
      obtain ⟨i, hi⟩ := h.shape.src_live he
      have hroot : c ≠ g.rootDir := by
        rintro rfl
        exact h.shape.root_dotdot he
      obtain ⟨p, pi, _, _, e', hp, _, _, he'⟩ := h.shape.parent hi hroot
      obtain rfl : e = e' := h.names he he'
      have heq : some (c, t, "..") = some (c, pi, "..") := he.symm.trans he'
      cases heq
      exact hdot hp

end Confinement

/-- The projection keeps to the subtree of `r`, and depends on nothing else, exactly when every ".." in the
    subtree and every directory's own inode stay inside. In a graph whose pools never filled up that is so
    for the root directory alone. -/
theorem restrict_confines (g : TypeGraph) (r : DirId) :
    (Confined g r ↔ g.KeepsInside r) ∧ (Reachable g → g.LiveDir r → (g.KeepsInside r ↔ r = g.rootDir)) :=
  ⟨confined_iff, fun hrun hr => (Reachable.inv hrun).keepsInside_iff hr⟩

/-- The root of a graph with a directory. -/
theorem restrict_confines_root :
    let g := (TypeGraph.new 0).calls (fun _ => 0) [.mkdir 1 "d" 0 0 .dirDefault]
    (Confined g 1 ↔ g.KeepsInside 1) ∧ (g.KeepsInside 1 ↔ 1 = g.rootDir) := by
  intro g
  obtain ⟨hconf, hroot⟩ := restrict_confines g 1
  exact ⟨hconf, hroot (Run.calls _ (.new 0) (by decide)) (by decide)⟩

/-- The projection of a directory shows the inode of its parent with all its attributes, and lists it as
    "..": changing the mode of the parent, which is outside the subtree, changes what the domain sees. -/
theorem parent_shown :
    let g := (TypeGraph.new 0).calls (fun _ => 0) [.mkdir 1 "d" 0 0 .dirDefault]
    let g' := g.calls (fun _ => 0) [.chmod 1 0]
    Reachable g ∧ Reachable g' ∧ g.LiveDir 2 ∧ SameSubtree g g' 2 ∧ ¬ g.InSubtree 2 1 ∧
      (projectRestrict g 2).visibleInodes[1]?.isSome = true ∧
      projectedLookup (projectRestrict g 2) 2 ".." = some 1 ∧
      projectRestrict g' 2 ≠ projectRestrict g 2 := by
  intro g g'
  have hrun : Reachable g := Run.calls _ (.new 0) (by decide)
  have hleaf : ∀ {c}, g.SeesDir 2 c → c = 2 := by
    intro c hc
    induction hc with
    | refl => rfl
    | tail _ hstep ih =>
        subst ih
        have hnone : g.childDirs 2 = [] := by decide
        rw [hnone] at hstep
        cases hstep
  have hown : ∀ {t}, g.OwnInode 2 t → t = 2 := by
    rintro t ⟨dir, hdir, rfl⟩
    have hget : g.getDir 2 = some ⟨2, 2⟩ := by decide
    rw [hget] at hdir
    cases hdir
    rfl
  have hin : ∀ {t}, g.InSubtree 2 t → t = 2 := by
    rintro t (ho | ⟨c, n, hc, hn, hmem⟩)
    · exact hown ho
    · rw [hleaf hc] at hmem
      have hlist : g.shownEntries 2 = [(".", 2), ("..", 1)] := by decide
      rw [hlist] at hmem
      rcases List.mem_cons.mp hmem with heq | hmem
      · cases heq
        rfl
      · rw [List.mem_singleton] at hmem
        cases hmem
        exact absurd rfl hn
  have hsame : SameSubtree g g' 2 := by
    refine ⟨?_, ?_, ?_⟩
    · intro c hc
      obtain rfl := hleaf hc
      refine ⟨by decide, fun t ho => ?_⟩
      obtain rfl := hown ho
      decide
    · intro c hc
      obtain rfl := hleaf hc
      exact ⟨by decide, by decide⟩
    · intro t ht
      obtain rfl := hin ht
      exact ⟨by decide, by decide⟩
  refine ⟨hrun, Run.calls [.chmod 1 0] hrun (by decide), by decide, hsame, ?_, by decide, by decide, ?_⟩
  · intro h1
    exact absurd (hin h1) (by decide)
  · intro heq
    have hone := congrArg (fun view => view.visibleInodes[(1 : InodeId)]?) heq
    revert hone
    decide

end SotFs
