/-
Module: SotFs.Proofs.Skeleton
Layer: Proofs
Purpose: The skeleton of a type graph in which the names of each file are in one directory. A directory's
  "." and ".." make a four-cycle of it, its inode, its parent and its parent's inode; with the two inodes
  joined every node sees, among the nodes above it, only a clique of two. So the treewidth is at most two and
  the greedy elimination says so. Block edges are to stay out of it: they name their block by an inode's tag,
  so that a block whose id is an inode's adds an edge between inodes.
Trusted boundary: none
Main exports: TypeGraph.BlocksApart, TypeGraph.OneHome, TypeGraph.skeletonGraph, skeleton_shows,
  computeTreewidth_le_two
-/
import SotFs.Proofs.Elimination
import SotFs.Proofs.Preservation

namespace SotFs

open Std (ExtTreeMap ExtTreeSet)
open Relation Foundation

/-! ### The skeleton as a graph -/

section Nodes

variable {g : TypeGraph}

theorem Arena.map_iter_nodup {T : Type} {CAPACITY : Nat} (a : Arena T CAPACITY) {β : Type} {f : Nat → β}
    (hf : Function.Injective f) : (a.iter.map fun entry => f entry.1).Nodup := by
  refine a.iter_nodup.map_on ?_
  rintro ⟨s, v⟩ hs ⟨s', v'⟩ hs' heq
  have hslot : s = s' := hf heq
  subst hslot
  have hv := (mem_iter.mp hs).symm.trans (mem_iter.mp hs')
  cases hv
  rfl

theorem Arena.mem_map_iter {T : Type} {CAPACITY : Nat} {a : Arena T CAPACITY} {β : Type} {f : Nat → β} {b : β} :
    (b ∈ a.iter.map fun entry => f entry.1) ↔ ∃ s v, a.data s = some v ∧ f s = b := by
  rw [List.mem_map]
  constructor
  · rintro ⟨⟨s, v⟩, hmem, rfl⟩
    exact ⟨s, v, mem_iter.mp hmem, rfl⟩
  · rintro ⟨s, v, hv, rfl⟩
    exact ⟨(s, v), mem_iter.mpr hv, rfl⟩

/-- No node gets two uids. -/
theorem TypeGraph.skeletonNodes_nodup (g : TypeGraph) : g.skeletonNodes.Nodup := by
  unfold TypeGraph.skeletonNodes
  simp only [List.nodup_append, List.mem_append, Arena.mem_map_iter]
  refine ⟨⟨⟨⟨Arena.map_iter_nodup _ ?_, Arena.map_iter_nodup _ ?_, ?_⟩, Arena.map_iter_nodup _ ?_, ?_⟩,
    Arena.map_iter_nodup _ ?_, ?_⟩, Arena.map_iter_nodup _ ?_, ?_⟩
  all_goals grind [Function.Injective]

/-- The nodes of the skeleton are the live ones of five kinds. -/
theorem TypeGraph.mem_skeletonNodes {n : NodeId} : n ∈ g.skeletonNodes ↔
    match n with
    | .inode s => ∃ v, g.inodes.data s = some v
    | .directory s => ∃ v, g.dirs.data s = some v
    | .capability s => ∃ v, g.caps.data s = some v
    | .block s => ∃ v, g.blocks.data s = some v
    | .version s => ∃ v, g.versions.data s = some v
    | .transaction _ | .xattr _ => False := by
  unfold TypeGraph.skeletonNodes
  simp only [List.mem_append, Arena.mem_map_iter]
  cases n <;> simp

/-- Two nodes are the ends of an edge. -/
def TypeGraph.Joined (g : TypeGraph) (n m : NodeId) : Prop :=
  ∃ e v, g.edges.data e = some v ∧ v.srcNode = n ∧ v.tgtNode = m

/-- The skeleton: two uids are adjacent if an edge joins their nodes. -/
def TypeGraph.skeletonGraph (g : TypeGraph) : SimpleGraph Nat where
  Adj a b := a ≠ b ∧ ∃ n m, g.skeletonNodes[a]? = some n ∧ g.skeletonNodes[b]? = some m ∧
    (g.Joined n m ∨ g.Joined m n)
  symm := ⟨by
    rintro a b ⟨hne, n, m, ha, hb, hjoined⟩
    exact ⟨hne.symm, m, n, hb, ha, hjoined.symm⟩⟩
  loopless := ⟨fun _ h => h.1 rfl⟩

/-- Without repetition the position of a node is the place where it stands. -/
theorem idxOf?_eq_some {α : Type*} [BEq α] [LawfulBEq α] {nodes : List α} (hnodup : nodes.Nodup) {n : α}
    {i : Nat} : nodes.idxOf? n = some i ↔ nodes[i]? = some n := by
  rw [List.idxOf?_eq_some_iff, List.getElem?_eq_some_iff]
  constructor
  · rintro ⟨hi, heq, _⟩
    exact ⟨hi, heq⟩
  · rintro ⟨hi, heq⟩
    refine ⟨hi, heq, fun j hj hjn => ?_⟩
    exact hj.ne (hnodup.getElem_inj_iff.mp (hjn.trans heq.symm))

theorem mem_addSkeletonEdge {nodes : List NodeId} (hnodup : nodes.Nodup) {adj : Adjacency} {edge : Edge}
    {x y : Nat} : y ∈ SetIndex.members (TypeGraph.addSkeletonEdge nodes adj edge) x ↔
      (x ≠ y ∧ ((nodes[x]? = some edge.srcNode ∧ nodes[y]? = some edge.tgtNode) ∨
        (nodes[y]? = some edge.srcNode ∧ nodes[x]? = some edge.tgtNode))) ∨
      y ∈ SetIndex.members adj x := by
  unfold TypeGraph.addSkeletonEdge
  simp only [← idxOf?_eq_some hnodup]
  split
  · rename_i su tu hsu htu
    rw [hsu, htu]
    split
    · rename_i hne
      rw [Adjacency.mem_connect]
      grind
    · rename_i heq
      grind
  · rename_i hnone
    grind

theorem mem_foldl_addSkeletonEdge {nodes : List NodeId} (hnodup : nodes.Nodup) {x y : Nat} (edges : List Edge) :
    ∀ {adj : Adjacency}, y ∈ SetIndex.members (edges.foldl (TypeGraph.addSkeletonEdge nodes) adj) x ↔
      (∃ edge ∈ edges, x ≠ y ∧ ((nodes[x]? = some edge.srcNode ∧ nodes[y]? = some edge.tgtNode) ∨
        (nodes[y]? = some edge.srcNode ∧ nodes[x]? = some edge.tgtNode))) ∨
      y ∈ SetIndex.members adj x := by
  induction edges with
  | nil => simp
  | cons edge edges ih =>
      intro adj
      rw [List.foldl_cons, ih, mem_addSkeletonEdge hnodup, List.exists_mem_cons_iff, or_assoc]
      exact or_left_comm

/-- The skeleton starts with no neighbours. -/
theorem not_mem_foldl_insertIfNew {x y : Nat} (uids : List Nat) : ∀ {adj : Adjacency},
    y ∉ SetIndex.members adj x →
      y ∉ SetIndex.members (uids.foldl (fun adj uid => adj.insertIfNew uid ∅) adj) x := by
  induction uids with
  | nil => exact fun h => h
  | cons uid uids ih =>
      intro adj h
      refine ih ?_
      rw [SetIndex.members_eq_getElem?] at h ⊢
      rw [ExtTreeMap.getElem?_insertIfNew]
      split
      · exact ExtTreeSet.not_mem_empty
      · exact h

/-- The adjacency sets are those of the skeleton. -/
theorem skeleton_shows (g : TypeGraph) (remaining : List Nat) :
    g.skeleton.Shows remaining g.skeletonGraph := by
  intro a _ b _
  unfold TypeGraph.skeleton
  dsimp only
  rw [mem_foldl_addSkeletonEdge g.skeletonNodes_nodup]
  have hempty : b ∉ SetIndex.members ((List.range g.skeletonNodes.length).foldl
      (fun (adj : Adjacency) uid => adj.insertIfNew uid ∅) ∅) a :=
    not_mem_foldl_insertIfNew _ (SetIndex.not_mem_members_empty a b)
  constructor
  · rintro (⟨edge, hedge, hne, hends⟩ | hold)
    · obtain ⟨⟨e, v⟩, hmem, rfl⟩ := List.mem_map.mp hedge
      have hv := Arena.mem_iter.mp hmem
      rcases hends with ⟨ha, hb⟩ | ⟨hb, ha⟩
      · exact ⟨hne, _, _, ha, hb, .inl ⟨e, v, hv, rfl, rfl⟩⟩
      · exact ⟨hne, _, _, ha, hb, .inr ⟨e, v, hv, rfl, rfl⟩⟩
    · exact absurd hold hempty
  · rintro ⟨hne, n, m, ha, hb, ⟨e, v, hv, rfl, rfl⟩ | ⟨e, v, hv, rfl, rfl⟩⟩
    · exact .inl ⟨v, List.mem_map.mpr ⟨(e, v), Arena.mem_iter.mpr hv, rfl⟩, hne, .inl ⟨ha, hb⟩⟩
    · exact .inl ⟨v, List.mem_map.mpr ⟨(e, v), Arena.mem_iter.mpr hv, rfl⟩, hne, .inr ⟨hb, ha⟩⟩

end Nodes

/-! ### The chordal completion -/

/-- A block edge between two live inodes is a loop: no block id is taken for that of another live inode. -/
def TypeGraph.BlocksApart (g : TypeGraph) : Prop :=
  ∀ {x t b o}, g.edges.view Edge.pointer x = some (t, b, o) → (g.inodes.data t).isSome →
    (g.inodes.data b).isSome → t = b

/-- The names of a file are all in one directory. -/
def TypeGraph.OneHome (g : TypeGraph) : Prop :=
  ∀ {e e' t d d' n n'}, g.entries e = some (d, t, n) → g.entries e' = some (d', t, n') →
    g.dirForInode t = none → d = d'

/-- `c` is entered in `p`, and these are their inodes. -/
def TypeGraph.Beside (g : TypeGraph) (n m : NodeId) : Prop :=
  ∃ p c pi ci, g.shape.Child p c ∧ g.dirInode p = some pi ∧ g.dirInode c = some ci ∧
    n = .inode pi ∧ m = .inode ci

/-- The graph of the edges, in which the inode of a directory is joined to that of its parent too. -/
def TypeGraph.chordal (g : TypeGraph) : SimpleGraph NodeId where
  Adj n m := n ≠ m ∧ ((g.Joined n m ∨ g.Joined m n) ∨ g.Beside n m ∨ g.Beside m n)
  symm := ⟨by
    rintro n m ⟨hne, hjoined | hbeside⟩
    · exact ⟨hne.symm, .inl hjoined.symm⟩
    · exact ⟨hne.symm, .inr hbeside.symm⟩⟩
  loopless := ⟨fun _ h => h.1 rfl⟩

section Chordal

variable {g : TypeGraph} {n m : NodeId}

/-- Between nodes of the skeleton an edge is a name, a grant, or a block edge taken for one between inodes. -/
theorem Inv.joined_cases (h : Inv g) (happart : g.BlocksApart) (hjoined : g.Joined n m) (hne : n ≠ m)
    (hn : n ∈ g.skeletonNodes) (hm : m ∈ g.skeletonNodes) :
    (∃ e d t name, g.entries e = some (d, t, name) ∧ n = .directory d ∧ m = .inode t) ∨
    ∃ e c t r, g.edges.view Edge.grant e = some (c, t, r) ∧ n = .capability c ∧ m = .inode t := by
  obtain ⟨e, v, hv, rfl, rfl⟩ := hjoined
  have hother : v.other = none := by
    have hnone := h.side.others e
    rwa [Arena.view, hv, Option.bind_some] at hnone
  cases v with
  | contains id d t name => exact .inl ⟨e, d, t, name, Arena.view_eq_some.mpr ⟨_, hv, rfl⟩, rfl, rfl⟩
  | grants id c t r => exact .inr ⟨e, c, t, r, Arena.view_eq_some.mpr ⟨_, hv, rfl⟩, rfl, rfl⟩
  | pointsTo id t b o =>
      obtain ⟨i, hi⟩ := TypeGraph.mem_skeletonNodes.mp hn
      obtain ⟨j, hj⟩ := TypeGraph.mem_skeletonNodes.mp hm
      have htb : t = b := happart (x := e) (o := o) (Arena.view_eq_some.mpr ⟨_, hv, rfl⟩)
        (by rw [hi]; rfl) (by rw [hj]; rfl)
      exact absurd (congrArg NodeId.inode htb) hne
  | hasXattr e' t a => exact absurd (TypeGraph.mem_skeletonNodes.mp hm) id
  | delegates | derivedFrom | supersedes => cases hother

/-- The rank of a node: directories by depth, each after its inode, then files, then everything else. -/
noncomputable def TypeGraph.rank (g : TypeGraph) (depth : DirId → ℕ) : NodeId → ℕ ×ₗ ℕ
  | .inode t =>
      match g.dirForInode t with
      | some d => toLex (0, 2 * depth d)
      | none => toLex (1, 0)
  | .directory d => toLex (0, 2 * depth d + 1)
  | _ => toLex (2, 0)

/-! What a node sees at or below its own rank. -/

section Below

variable {depth : DirId → ℕ} {u : NodeId}

/-- A directory's inode sees its parent and its parent's inode. -/
theorem Inv.below_dirInode (h : Inv g) (happart : g.BlocksApart)
    (hdepth : ∀ {p c}, g.shape.Child p c → depth c = depth p + 1) {d : DirId} {t : InodeId}
    (hd : g.dirInode d = some t) (ht : .inode t ∈ g.skeletonNodes) (hu : u ∈ g.skeletonNodes)
    (hadj : g.chordal.Adj (.inode t) u) (hrank : g.rank depth u ≤ g.rank depth (.inode t)) :
    ∃ p pi, g.shape.Child p d ∧ g.dirInode p = some pi ∧ (u = .directory p ∨ u = .inode pi) := by
  have hdir : g.dirForInode t = some d := h.dirForInode_iff.mpr hd
  obtain ⟨hne, (hjoined | hjoined) | hbeside | hbeside⟩ := hadj
  · rcases h.joined_cases happart hjoined hne ht hu with ⟨_, _, _, _, _, heq, _⟩ | ⟨_, _, _, _, _, heq, _⟩ <;>
      cases heq
  · rcases h.joined_cases happart hjoined hne.symm hu ht with
      ⟨e, p, t', name, he, rfl, heq⟩ | ⟨_, _, _, _, _, rfl, _⟩
    · cases heq
      obtain ⟨pi, hp⟩ := h.shape.src_live he
      simp only [TypeGraph.rank, hdir, Prod.Lex.toLex_le_toLex] at hrank
      by_cases hdot : name = "."
      · subst hdot
        have hsame : p = d := h.shape.dir_inj (h.shape.dot_tgt he) hd
        subst hsame
        omega
      · by_cases hdotdot : name = ".."
        · -- the entry of a child leads here
          subst hdotdot
          obtain ⟨q, hchild, hq⟩ := h.shape.dotdot_parent hp he
          have hqd : q = d := h.shape.dir_inj hq hd
          subst hqd
          have hdeep := hdepth hchild
          omega
        · exact ⟨p, pi, ⟨e, name, t, hd, ⟨hdot, hdotdot⟩, he⟩, hp, .inl rfl⟩
    · simp [TypeGraph.rank, hdir, Prod.Lex.toLex_le_toLex] at hrank
  · obtain ⟨p, c, pi, ci, hchild, hp, hc, heq, rfl⟩ := hbeside
    cases heq
    have hpd : p = d := h.shape.dir_inj hp hd
    subst hpd
    have hci : g.dirForInode ci = some c := h.dirForInode_iff.mpr hc
    have hdeep := hdepth hchild
    simp only [TypeGraph.rank, hdir, hci, Prod.Lex.toLex_le_toLex] at hrank
    omega
  · obtain ⟨p, c, pi, ci, hchild, hp, hc, rfl, heq⟩ := hbeside
    cases heq
    have hcd : c = d := h.shape.dir_inj hc hd
    subst hcd
    exact ⟨p, pi, hchild, hp, .inr rfl⟩

/-- A directory sees its inode and its parent's inode. -/
theorem Inv.below_directory (h : Inv g) (happart : g.BlocksApart)
    (hdepth : ∀ {p c}, g.shape.Child p c → depth c = depth p + 1) {d : DirId} {di : InodeId}
    (hd : g.dirInode d = some di) (hd' : .directory d ∈ g.skeletonNodes) (hu : u ∈ g.skeletonNodes)
    (hadj : g.chordal.Adj (.directory d) u) (hrank : g.rank depth u ≤ g.rank depth (.directory d)) :
    u = .inode di ∨ ∃ p pi, g.shape.Child p d ∧ g.dirInode p = some pi ∧ u = .inode pi := by
  obtain ⟨hne, (hjoined | hjoined) | hbeside | hbeside⟩ := hadj
  · rcases h.joined_cases happart hjoined hne hd' hu with
      ⟨e, d', t, name, he, heq, rfl⟩ | ⟨_, _, _, _, _, heq, _⟩
    · cases heq
      by_cases hdot : name = "."
      · subst hdot
        have hsame := h.shape.dot_tgt he
        rw [show g.shape.dirInode d = some di from hd] at hsame
        cases hsame
        exact .inl rfl
      · by_cases hdotdot : name = ".."
        · subst hdotdot
          obtain ⟨p, hchild, hp⟩ := h.shape.dotdot_parent hd he
          exact .inr ⟨p, t, hchild, hp, rfl⟩
        · -- what is entered here ranks above
          exfalso
          cases hdir : g.dirForInode t with
          | none => simp [TypeGraph.rank, hdir, Prod.Lex.toLex_le_toLex] at hrank
          | some c =>
              have hc : g.dirInode c = some t := h.dirForInode_iff.mp hdir
              have hdeep := hdepth ⟨e, name, t, hc, ⟨hdot, hdotdot⟩, he⟩
              simp only [TypeGraph.rank, hdir, Prod.Lex.toLex_le_toLex] at hrank
              omega
    · cases heq
  · rcases h.joined_cases happart hjoined hne.symm hu hd' with ⟨_, _, _, _, _, _, heq⟩ | ⟨_, _, _, _, _, _, heq⟩ <;>
      cases heq
  · obtain ⟨_, _, _, _, _, _, _, heq, _⟩ := hbeside
    cases heq
  · obtain ⟨_, _, _, _, _, _, _, _, heq⟩ := hbeside
    cases heq

/-- A file sees only a directory that has a name of it. -/
theorem Inv.below_file (h : Inv g) (happart : g.BlocksApart) {t : InodeId} (hfile : g.dirForInode t = none)
    (ht : .inode t ∈ g.skeletonNodes) (hu : u ∈ g.skeletonNodes) (hadj : g.chordal.Adj (.inode t) u)
    (hrank : g.rank depth u ≤ g.rank depth (.inode t)) :
    ∃ e d n, g.entries e = some (d, t, n) ∧ u = .directory d := by
  have hnodir : ∀ {d}, g.dirInode d ≠ some t := by
    intro d hd
    rw [h.dirForInode_iff.mpr hd] at hfile
    cases hfile
  obtain ⟨hne, (hjoined | hjoined) | hbeside | hbeside⟩ := hadj
  · rcases h.joined_cases happart hjoined hne ht hu with ⟨_, _, _, _, _, heq, _⟩ | ⟨_, _, _, _, _, heq, _⟩ <;>
      cases heq
  · rcases h.joined_cases happart hjoined hne.symm hu ht with
      ⟨e, p, t', name, he, rfl, heq⟩ | ⟨_, _, _, _, _, rfl, _⟩
    · cases heq
      exact ⟨e, p, name, he, rfl⟩
    · simp [TypeGraph.rank, hfile, Prod.Lex.toLex_le_toLex] at hrank
  · obtain ⟨p, _, _, _, _, hp, _, heq, _⟩ := hbeside
    cases heq
    exact absurd hp hnodir
  · obtain ⟨_, c, _, _, _, _, hc, _, heq⟩ := hbeside
    cases heq
    exact absurd hc hnodir

/-- With one link for each file, all that lead to it are in one directory. -/
theorem Inv.oneHome (h : Inv g)
    (hsingle : ∀ {s i}, g.inodes.data s = some i → i.vtype ≠ .directory → i.linkCount ≤ 1) :
    g.OneHome := by
  intro e e' t d d' n n' he he' hfile
  obtain ⟨k, hk, hslot⟩ := h.shape.tgt_live he
  obtain ⟨i, hi, hkind⟩ := Arena.view_eq_some.mp hk
  cases hkind
  have hnotdir : i.vtype ≠ .directory := by
    intro hdir
    rw [hslot hdir, hdir] at hk
    obtain ⟨c, hc⟩ := h.shape.kind_dir hk
    rw [h.dirForInode_iff.mpr hc] at hfile
    cases hfile
  have hcounts : ∀ {x d n}, g.entries x = some (d, t, n) → x ∈ linksTo g.entries (idToArena t) := by
    intro x d n hx
    refine mem_linksTo.mpr ⟨h.entry_lt hx, _, hx, rfl, ?_⟩
    rintro rfl
    obtain ⟨_, hd⟩ := h.shape.src_live hx
    obtain ⟨p, _, hp⟩ := h.shape.dotdot_parent hd hx
    rw [h.dirForInode_iff.mpr hp] at hfile
    cases hfile
  have hle := hsingle hi hnotdir
  rw [h.links hi] at hle
  have heq := Finset.card_le_one.mp hle e (hcounts he) e' (hcounts he')
  subst heq
  rw [he] at he'
  cases he'
  rfl

/-- A capability sees the inode that it grants. -/
theorem Inv.below_capability (h : Inv g) (happart : g.BlocksApart) {c : CapId}
    (hc : .capability c ∈ g.skeletonNodes) (hu : u ∈ g.skeletonNodes)
    (hadj : g.chordal.Adj (.capability c) u) :
    ∃ e t r, g.edges.view Edge.grant e = some (c, t, r) ∧ u = .inode t := by
  obtain ⟨hne, (hjoined | hjoined) | hbeside | hbeside⟩ := hadj
  · rcases h.joined_cases happart hjoined hne hc hu with
      ⟨_, _, _, _, _, heq, _⟩ | ⟨e, c', t, r, he, heq, rfl⟩
    · cases heq
    · cases heq
      exact ⟨e, t, r, he, rfl⟩
  · rcases h.joined_cases happart hjoined hne.symm hu hc with ⟨_, _, _, _, _, _, heq⟩ | ⟨_, _, _, _, _, _, heq⟩ <;>
      cases heq
  · obtain ⟨_, _, _, _, _, _, _, heq, _⟩ := hbeside
    cases heq
  · obtain ⟨_, _, _, _, _, _, _, _, heq⟩ := hbeside
    cases heq

end Below

theorem Inv.exists_parent_inode (h : Inv g) {p c : DirId} (hchild : g.shape.Child p c) :
    ∃ pi, g.dirInode p = some pi := by
  obtain ⟨e, n, i, _, _, he⟩ := hchild
  exact h.shape.src_live he

/-- A directory and its inode are joined by its ".". -/
theorem Inv.self_clique (h : Inv g) {p : DirId} {pi : InodeId} (hp : g.dirInode p = some pi) :
    ∀ a ∈ ({.directory p, .inode pi} : Finset NodeId), ∀ b ∈ ({.directory p, .inode pi} : Finset NodeId),
      a ≠ b → g.chordal.Adj a b := by
  obtain ⟨e, he⟩ := h.shape.dot hp
  have hjoined : g.Joined (.directory p) (.inode pi) := ⟨e, _, h.entries_iff.mp he, rfl, rfl⟩
  intro a ha b hb hab
  simp only [Finset.mem_insert, Finset.mem_singleton] at ha hb
  rcases ha with rfl | rfl <;> rcases hb with rfl | rfl
  · exact absurd rfl hab
  · exact ⟨hab, .inl (.inl hjoined)⟩
  · exact ⟨hab, .inl (.inr hjoined)⟩
  · exact absurd rfl hab

/-- The treewidth of the completed graph, and so of the edges, is at most two. -/
theorem Inv.chordal_narrow (h : Inv g) (happart : g.BlocksApart) (hhome : g.OneHome) :
    TreewidthLE g.chordal g.skeletonNodes.toFinset 2 := by
  obtain ⟨depth, hdepth⟩ := h.shape.tree.exists_depth
  have hdepth' : ∀ {p c}, g.shape.Child p c → depth c = depth p + 1 := by
    rintro p c hchild
    obtain ⟨e, n, i, _, _, he⟩ := hchild
    obtain ⟨pi, hp⟩ := h.shape.src_live he
    exact hdepth (h.shape.rooted hp) ⟨e, n, i, ‹_›, ‹_›, he⟩
  refine .of_rank (g.rank depth) _ fun v hv => ?_
  rw [List.mem_toFinset] at hv
  cases v with
  | inode t =>
      cases hdir : g.dirForInode t with
      | none =>
          by_cases hname : ∃ e d n, g.entries e = some (d, t, n)
          · obtain ⟨e, d, n, he⟩ := hname
            refine ⟨{.directory d}, by simp, by simp, fun u hu hadj hrank => ?_⟩
            obtain ⟨e', d', n', he', rfl⟩ := h.below_file happart hdir hv (List.mem_toFinset.mp hu) hadj hrank
            rw [Finset.mem_singleton, hhome he' he hdir]
          · refine ⟨∅, by simp, by simp, fun u hu hadj hrank => ?_⟩
            obtain ⟨e, d, n, he, _⟩ := h.below_file happart hdir hv (List.mem_toFinset.mp hu) hadj hrank
            exact absurd ⟨e, d, n, he⟩ hname
      | some d =>
          have hd := h.dirForInode_iff.mp hdir
          by_cases hparent : ∃ p, g.shape.Child p d
          · obtain ⟨p, hchild⟩ := hparent
            obtain ⟨pi, hp⟩ := h.exists_parent_inode hchild
            refine ⟨{.directory p, .inode pi}, Finset.card_le_two, h.self_clique hp, fun u hu hadj hrank => ?_⟩
            obtain ⟨q, qi, hchild', hq, hu⟩ :=
              h.below_dirInode happart hdepth' hd hv (List.mem_toFinset.mp hu) hadj hrank
            have hqp := h.shape.tree.parent_unique hchild' hchild
            subst hqp
            have hqi := hq.symm.trans hp
            cases hqi
            rcases hu with rfl | rfl <;> simp
          · refine ⟨∅, by simp, by simp, fun u hu hadj hrank => ?_⟩
            obtain ⟨q, _, hchild, _⟩ :=
              h.below_dirInode happart hdepth' hd hv (List.mem_toFinset.mp hu) hadj hrank
            exact absurd ⟨q, hchild⟩ hparent
  | directory d =>
      obtain ⟨dir, hdata⟩ := TypeGraph.mem_skeletonNodes.mp hv
      have hd : g.dirInode d = some dir.inodeId := Arena.view_eq_some.mpr ⟨dir, hdata, rfl⟩
      by_cases hparent : ∃ p, g.shape.Child p d
      · obtain ⟨p, hchild⟩ := hparent
        obtain ⟨pi, hp⟩ := h.exists_parent_inode hchild
        refine ⟨{.inode dir.inodeId, .inode pi}, Finset.card_le_two, ?_, fun u hu hadj hrank => ?_⟩
        · have hbeside : g.Beside (.inode pi) (.inode dir.inodeId) :=
            ⟨p, d, pi, dir.inodeId, hchild, hp, hd, rfl, rfl⟩
          intro a ha b hb hab
          simp only [Finset.mem_insert, Finset.mem_singleton] at ha hb
          rcases ha with rfl | rfl <;> rcases hb with rfl | rfl
          · exact absurd rfl hab
          · exact ⟨hab, .inr (.inr hbeside)⟩
          · exact ⟨hab, .inr (.inl hbeside)⟩
          · exact absurd rfl hab
        · rcases h.below_directory happart hdepth' hd hv (List.mem_toFinset.mp hu) hadj hrank with
            rfl | ⟨q, qi, hchild', hq, rfl⟩
          · simp
          · have hqp := h.shape.tree.parent_unique hchild' hchild
            subst hqp
            have hqi := hq.symm.trans hp
            cases hqi
            simp
      · refine ⟨{.inode dir.inodeId}, by simp, by simp, fun u hu hadj hrank => ?_⟩
        rcases h.below_directory happart hdepth' hd hv (List.mem_toFinset.mp hu) hadj hrank with
          rfl | ⟨q, qi, hchild', hq, rfl⟩
        · simp
        · exact absurd ⟨q, hchild'⟩ hparent
  | capability c =>
      obtain ⟨cap, hcap⟩ := TypeGraph.mem_skeletonNodes.mp hv
      obtain ⟨e, t, r, he⟩ := h.side.grants.used hcap
      refine ⟨{.inode t}, by simp, by simp, fun u hu hadj _ => ?_⟩
      obtain ⟨e', t', r', he', rfl⟩ := h.below_capability happart hv (List.mem_toFinset.mp hu) hadj
      have heq := UniqueIndex.inj h.side.grants.index he' he rfl
      subst heq
      rw [he] at he'
      cases he'
      simp
  | block | version =>
      refine ⟨∅, by simp, by simp, fun u hu hadj _ => ?_⟩
      obtain ⟨hne, (hjoined | hjoined) | hbeside | hbeside⟩ := hadj
      · rcases h.joined_cases happart hjoined hne hv (List.mem_toFinset.mp hu) with
          ⟨_, _, _, _, _, heq, _⟩ | ⟨_, _, _, _, _, heq, _⟩ <;> cases heq
      · rcases h.joined_cases happart hjoined hne.symm (List.mem_toFinset.mp hu) hv with
          ⟨_, _, _, _, _, _, heq⟩ | ⟨_, _, _, _, _, _, heq⟩ <;> cases heq
      · obtain ⟨_, _, _, _, _, _, _, heq, _⟩ := hbeside
        cases heq
      · obtain ⟨_, _, _, _, _, _, _, _, heq⟩ := hbeside
        cases heq
  | transaction | xattr => exact absurd (TypeGraph.mem_skeletonNodes.mp hv) not_false

/-- The monitor sees no wide skeleton: with the names of each file in one directory and the blocks apart,
    what compute_treewidth returns is at most two. -/
theorem Inv.computeTreewidth_le_two (h : Inv g) (happart : g.BlocksApart) (hhome : g.OneHome) :
    computeTreewidth g ≤ 2 := by
  have hnarrow : TreewidthLE g.skeletonGraph (List.range g.skeletonNodes.length).toFinset 2 := by
    refine (h.chordal_narrow happart hhome).comap (f := fun u => (g.skeletonNodes[u]?).getD (.inode 0))
      ?_ ?_ ?_
    · intro u hu
      rw [List.mem_toFinset, List.mem_range] at hu
      rw [List.getElem?_eq_getElem hu, Option.getD_some, List.mem_toFinset]
      exact List.getElem_mem hu
    · intro u hu w hw heq
      rw [List.mem_toFinset, List.mem_range] at hu hw
      rw [List.getElem?_eq_getElem hu, List.getElem?_eq_getElem hw, Option.getD_some, Option.getD_some] at heq
      exact g.skeletonNodes_nodup.getElem_inj_iff.mp heq
    · rintro u hu w hw ⟨hne, n, m, hn, hm, hjoined⟩
      rw [hn, hm, Option.getD_some, Option.getD_some]
      refine ⟨?_, .inl hjoined⟩
      rintro rfl
      obtain ⟨hlu, hn'⟩ := List.getElem?_eq_some_iff.mp hn
      obtain ⟨hlw, hm'⟩ := List.getElem?_eq_some_iff.mp hm
      exact hne (g.skeletonNodes_nodup.getElem_inj_iff.mp (hn'.trans hm'.symm))
  exact (greedyWidth_le le_rfl g.skeletonNodes.length List.nodup_range
    (skeleton_shows g (List.range g.skeletonNodes.length)) hnarrow).trans_eq (max_eq_right (Nat.zero_le _))

end Chordal

end SotFs
