/-
Module: SotFs.Proofs.NamespaceRefinement
Layer: Proofs
Purpose: The graph refines the abstract namespace. `TypeGraph.namespace` reads the abstract map off a graph;
  each successful call of create_file, mkdir, symlink, link, unlink and rmdir on a reachable graph is the
  abstract step, and list_dir lists the entries of its directory.
Trusted boundary: none
Main exports: TypeGraph.namespace, Represents, Inv.namespace_step, namespace_refined
-/
import SotFs.Spec.Namespace
import SotFs.Proofs.EditFrames
import SotFs.Proofs.NameIndex

namespace SotFs

open Std (ExtTreeMap ExtTreeSet)
open Foundation Namespace

/-- What is to be known of the inode that an id leads to. -/
def TypeGraph.viewInode (g : TypeGraph) (t : InodeId) : Option InodeView :=
  (g.getInode t).map fun i =>
    { vtype := i.vtype
      permissions := i.permissions
      uid := i.uid
      gid := i.gid
      size := i.size
      content := g.fileData[t]?
      symlink := g.symlinkTargets[t]?
      xattrs := (SetIndex.members g.inodeXattrs t).toList.filterMap fun x => g.xattrs[x]? }

/-- The abstract namespace of a graph: where lookup leads, and what the pools say of the inodes. -/
def TypeGraph.namespace (g : TypeGraph) : Namespace where
  entry k := g.resolveName k.1 k.2
  inode := g.viewInode

/-! ### Entries -/

/-- The map says where the entries of an edge table lead. -/
def Represents (m : DirId × String → Option InodeId)
    (entries : EdgeId → Option (DirId × InodeId × String)) : Prop :=
  ∀ d n t, m (d, n) = some t ↔ ∃ e, entries e = some (d, t, n)

namespace Represents

variable {m m' : DirId × String → Option InodeId} {entries : EdgeId → Option (DirId × InodeId × String)}
  {e : EdgeId} {d : DirId} {t : InodeId} {n : String}

/-- A table is represented by one map. -/
theorem unique (h : Represents m entries) (h' : Represents m' entries) : m = m' := by
  funext key
  obtain ⟨d, n⟩ := key
  refine Option.ext ?_
  intro t
  exact (h d n t).trans (h' d n t).symm

/-- A new entry under a free name. -/
theorem insert (h : Represents m entries) (hvac : entries e = none) (hfree : m (d, n) = none) :
    Represents (Function.update m (d, n) (some t)) (Function.update entries e (some (d, t, n))) := by
  intro d' n' t'
  rw [Function.update_apply]
  constructor
  · intro hm
    split at hm
    · rename_i hk
      cases hk
      cases hm
      exact ⟨e, Function.update_self _ _ _⟩
    · obtain ⟨x, hx⟩ := (h d' n' t').mp hm
      have hxe : x ≠ e := by
        rintro rfl
        rw [hvac] at hx
        cases hx
      exact ⟨x, by rw [Function.update_of_ne hxe, hx]⟩
  · rintro ⟨x, hx⟩
    rw [Function.update_apply] at hx
    split at hx
    · cases hx
      exact if_pos rfl
    · have hm := (h d' n' t').mpr ⟨x, hx⟩
      rw [if_neg]
      · exact hm
      · rintro hk
        cases hk
        rw [hfree] at hm
        cases hm

/-- An entry less; the names of a table are unique. -/
theorem remove (h : Represents m entries) (he : entries e = some (d, t, n))
    (hnames : ∀ {x y d t t' n}, entries x = some (d, t, n) → entries y = some (d, t', n) → x = y) :
    Represents (Function.update m (d, n) none) (Function.update entries e none) := by
  intro d' n' t'
  rw [Function.update_apply]
  constructor
  · intro hm
    split at hm
    · cases hm
    · rename_i hk
      obtain ⟨x, hx⟩ := (h d' n' t').mp hm
      have hxe : x ≠ e := by
        rintro rfl
        rw [he] at hx
        cases hx
        exact hk rfl
      exact ⟨x, by rw [Function.update_of_ne hxe, hx]⟩
  · rintro ⟨x, hx⟩
    rw [Function.update_apply] at hx
    split at hx
    · cases hx
    · rename_i hxe
      rw [if_neg]
      · exact (h d' n' t').mpr ⟨x, hx⟩
      · intro hk
        cases hk
        exact hxe (hnames hx he)

end Represents

section Reading

variable {g : TypeGraph}

theorem Inv.represents (h : Inv g) : Represents g.namespace.entry g.entries := fun _ _ _ =>
  h.resolveName_iff

/-- A user name of an inode is an entry that counts for its slot. -/
theorem Inv.named_iff (h : Inv g) {t : InodeId} :
    g.namespace.Named t ↔ ∃ e d t' n, UserName n ∧ g.entries e = some (d, t', n) ∧
      idToArena t' = idToArena t := by
  constructor
  · rintro ⟨d, n, t', hn, hentry, hsame⟩
    obtain ⟨e, he⟩ := (h.represents d n t').mp hentry
    exact ⟨e, d, t', n, hn, he, hsame⟩
  · rintro ⟨e, d, t', n, hn, he, hsame⟩
    exact ⟨d, n, t', hn, (h.represents d n t').mpr ⟨e, he⟩, hsame⟩

/-- More entries, more names. -/
theorem Inv.named_mono {g' : TypeGraph} (h : Inv g) (h' : Inv g')
    (hsub : ∀ {e w}, g.entries e = some w → g'.entries e = some w) {t : InodeId}
    (hnamed : g.namespace.Named t) : g'.namespace.Named t := by
  obtain ⟨e, d, t', n, hn, he, hsame⟩ := h.named_iff.mp hnamed
  exact h'.named_iff.mpr ⟨e, d, t', n, hn, hsub he, hsame⟩

/-- list_dir lists the entries of the directory, each once, under different names. -/
theorem Inv.listDir_spec (h : Inv g) (d : DirId) :
    ((g.listDir d).map Prod.fst).Nodup ∧
      ∀ n t, (n, t) ∈ g.listDir d ↔ g.namespace.entry (d, n) = some t := by
  constructor
  · rw [TypeGraph.listDir, List.map_map]
    exact (g.dirEntries_nodup d).map_on h.dirEntries_unique
  · intro n t
    rw [h.represents d n t, TypeGraph.listDir, List.mem_map]
    constructor
    · rintro ⟨⟨e, t', n'⟩, he, heq⟩
      cases heq
      exact ⟨e, h.mem_dirEntries.mp he⟩
    · rintro ⟨e, he⟩
      exact ⟨(e, t, n), h.mem_dirEntries.mpr he, rfl⟩

end Reading

/-! ### Inodes -/

/-- What the graph says of an inode that lives on is carried over; only link counts may change. -/
structure Carried (g g' : TypeGraph) : Prop where
  fileData : g'.fileData = g.fileData
  inodeXattrs : g'.inodeXattrs = g.inodeXattrs
  xattrs : g'.xattrs = g.xattrs
  symlinks : ∀ {t i}, g.getInode t = some i → g'.symlinkTargets[t]? = g.symlinkTargets[t]?
  inodes : ∀ {s i i'}, g.inodes.data s = some i → g'.inodes.data s = some i' →
    ∃ c, i' = { i with linkCount := c }

section Inodes

variable {g g' : TypeGraph}

theorem TypeGraph.viewInode_eq_none {t : InodeId} :
    g.namespace.inode t = none ↔ g.inodes.data (idToArena t) = none := by
  change (g.getInode t).map _ = none ↔ _
  rw [Option.map_eq_none_iff, TypeGraph.getInode, Arena.get_eq_data]

/-- A view that was there and is there still is the same. -/
theorem Carried.kept (hcarried : Carried g g') {t : InodeId} {v : InodeView}
    (hv : g.namespace.inode t = some v) (hlive : g'.namespace.inode t ≠ none) :
    g'.namespace.inode t = some v := by
  obtain ⟨i, hi, rfl⟩ := Option.map_eq_some_iff.mp hv
  rw [Ne, TypeGraph.viewInode_eq_none, ← Ne, Option.ne_none_iff_exists'] at hlive
  obtain ⟨i', hi'⟩ := hlive
  have hget : g'.getInode t = some i' := by rw [TypeGraph.getInode, Arena.get_eq_data, hi']
  have hdata := hi
  rw [TypeGraph.getInode, Arena.get_eq_data] at hdata
  obtain ⟨c, rfl⟩ := hcarried.inodes hdata hi'
  change (g'.getInode t).map _ = _
  rw [hget, Option.map_some, hcarried.fileData, hcarried.inodeXattrs, hcarried.xattrs,
    hcarried.symlinks hi]

/-- A call that makes names and frees nothing. -/
theorem step_of_making (h : Inv g) (h' : Inv g') {op : Op} {r : Reply} (hcarried : Carried g g')
    (hready : g.namespace.NameReady op)
    (hentries : g'.namespace.entry = entriesAfter g.namespace.entry op r)
    (hsub : ∀ {e w}, g.entries e = some w → g'.entries e = some w)
    (hlive : ∀ {s i}, g.inodes.data s = some i → g'.inodes.data s ≠ none)
    (hnew : ∀ {s}, g.inodes.data s = none →
      (g'.inodes.data s ≠ none ↔ ∃ i, r.newInode = some i ∧ idToArena i = s))
    (hfresh : ∀ {i}, r.newInode = some i → g.inodes.data (idToArena i) = none) :
    g.namespace.Step op r g'.namespace where
  ready := hready
  entries := hentries
  fresh hi := TypeGraph.viewInode_eq_none.mpr (hfresh hi)
  born := by
    intro t ht
    rw [TypeGraph.viewInode_eq_none] at ht
    rw [Ne, TypeGraph.viewInode_eq_none, ← Ne]
    exact hnew ht
  freed := by
    intro t ht
    rw [Ne, TypeGraph.viewInode_eq_none, ← Ne, Option.ne_none_iff_exists'] at ht
    obtain ⟨i, hi⟩ := ht
    rw [TypeGraph.viewInode_eq_none]
    constructor
    · intro hnone
      exact absurd hnone (hlive hi)
    · rintro ⟨hnamed, hnot⟩
      exact absurd (h.named_mono h' hsub hnamed) hnot
  kept hv hlive := hcarried.kept hv hlive

/-- A call that takes names and makes nothing; the inodes that it frees are those at slot `s`. -/
theorem step_of_taking (h : Inv g) (h' : Inv g') {op : Op} {r : Reply} (hcarried : Carried g g')
    (hready : g.namespace.NameReady op)
    (hentries : g'.namespace.entry = entriesAfter g.namespace.entry op r) (hreply : r.newInode = none)
    (hgone : ∀ {s}, g.inodes.data s = none → g'.inodes.data s = none)
    (hfreed : ∀ {s i}, g.inodes.data s = some i → (g'.inodes.data s = none ↔
      (∃ e d t n, UserName n ∧ g.entries e = some (d, t, n) ∧ idToArena t = s) ∧
        ∀ {e d t n}, UserName n → g'.entries e = some (d, t, n) → idToArena t ≠ s)) :
    g.namespace.Step op r g'.namespace where
  ready := hready
  entries := hentries
  fresh hi := by
    rw [hreply] at hi
    cases hi
  born := by
    intro t ht
    rw [TypeGraph.viewInode_eq_none] at ht
    constructor
    · intro hlive
      exact absurd (TypeGraph.viewInode_eq_none.mpr (hgone ht)) hlive
    · rintro ⟨i, hi, _⟩
      rw [hreply] at hi
      cases hi
  freed := by
    intro t ht
    rw [Ne, TypeGraph.viewInode_eq_none, ← Ne, Option.ne_none_iff_exists'] at ht
    obtain ⟨i, hi⟩ := ht
    rw [TypeGraph.viewInode_eq_none, hfreed hi, h.named_iff, h'.named_iff]
    constructor
    · rintro ⟨hbefore, hafter⟩
      refine ⟨hbefore, ?_⟩
      rintro ⟨e, d, t', n, hn, he, hslot⟩
      exact hafter hn he hslot
    · rintro ⟨hbefore, hafter⟩
      exact ⟨hbefore, fun hn he hslot => hafter ⟨_, _, _, _, hn, he, hslot⟩⟩
  kept hv hlive := hcarried.kept hv hlive

/-- A call that leaves side tables alone and changes one inode in its link count only. -/
theorem Carried.relink (hfileData : g'.fileData = g.fileData)
    (hinodeXattrs : g'.inodeXattrs = g.inodeXattrs) (hxattrs : g'.xattrs = g.xattrs)
    (hsymlinks : g'.symlinkTargets = g.symlinkTargets) {s : Nat} {i : Inode} {c : Nat}
    (hs : g.inodes.data s = some i)
    (hinodes : g'.inodes.data = Function.update g.inodes.data s (some { i with linkCount := c })) :
    Carried g g' := by
  refine ⟨hfileData, hinodeXattrs, hxattrs, fun _ => by rw [hsymlinks], ?_⟩
  intro x j j' hx hx'
  rw [hinodes, Function.update_apply] at hx'
  split at hx'
  · rename_i hxs
    rw [hxs, hs] at hx
    cases hx
    cases hx'
    exact ⟨c, rfl⟩
  · rw [hx] at hx'
    cases hx'
    exact ⟨j.linkCount, rfl⟩

/-- A call that leaves side tables alone and frees one inode. -/
theorem Carried.free (hfileData : g'.fileData = g.fileData)
    (hinodeXattrs : g'.inodeXattrs = g.inodeXattrs) (hxattrs : g'.xattrs = g.xattrs)
    (hsymlinks : g'.symlinkTargets = g.symlinkTargets) {s : Nat}
    (hinodes : g'.inodes.data = Function.update g.inodes.data s none) : Carried g g' := by
  refine ⟨hfileData, hinodeXattrs, hxattrs, fun _ => by rw [hsymlinks], ?_⟩
  intro x j j' hx hx'
  rw [hinodes, Function.update_apply] at hx'
  split at hx'
  · cases hx'
  · rw [hx] at hx'
    cases hx'
    exact ⟨j.linkCount, rfl⟩

/-- Writing a slot that was taken makes and frees no inode. -/
theorem data_none_iff {s x : Nat} {i j : Inode} (hs : g.inodes.data s = some i)
    (hinodes : g'.inodes.data = Function.update g.inodes.data s (some j)) :
    g'.inodes.data x = none ↔ g.inodes.data x = none := by
  rw [hinodes, Function.update_apply]
  split
  · rename_i hxs
    rw [hxs, hs]
    simp
  · rfl

/-- A call that makes names and one inode, under the next id. -/
theorem step_of_creation (h : Inv g) (h' : Inv g') {op : Op} {r : Reply} {inode : Inode}
    (hready : g.namespace.NameReady op)
    (hentries : g'.namespace.entry = entriesAfter g.namespace.entry op r)
    (hsub : ∀ {e w}, g.entries e = some w → g'.entries e = some w)
    (hreply : r.newInode = some g.nextInode)
    (hinodes : g'.inodes.data = Function.update g.inodes.data g.nextInode (some inode))
    (hfileData : g'.fileData = g.fileData) (hinodeXattrs : g'.inodeXattrs = g.inodeXattrs)
    (hxattrs : g'.xattrs = g.xattrs)
    (hsymlinks : ∀ t, t ≠ g.nextInode → g'.symlinkTargets[t]? = g.symlinkTargets[t]?) :
    g.namespace.Step op r g'.namespace := by
  have hnone : g.inodes.data g.nextInode = none := h.inodeIds.fresh le_rfl
  have hslot := h.inodeIds.slot_next
  have hold : ∀ {s i}, g.inodes.data s = some i → g'.inodes.data s = some i := by
    intro s i hs
    rw [hinodes, Function.update_of_ne]
    · exact hs
    · rintro rfl
      rw [hnone] at hs
      cases hs
  refine step_of_making h h' ⟨hfileData, hinodeXattrs, hxattrs, ?_, ?_⟩ hready hentries hsub ?_ ?_ ?_
  · intro t i ht
    refine hsymlinks t ?_
    rintro rfl
    rw [TypeGraph.getInode, Arena.get_eq_data, hslot, hnone] at ht
    cases ht
  · intro s i i' hs hs'
    rw [hold hs] at hs'
    cases hs'
    exact ⟨i.linkCount, rfl⟩
  · intro s i hs
    rw [hold hs]
    exact Option.some_ne_none _
  · intro s hs
    rw [hinodes, Function.update_apply, hreply]
    constructor
    · intro hlive
      split at hlive
      · rename_i hsn
        exact ⟨g.nextInode, rfl, by rw [hsn, hslot]⟩
      · exact absurd hs hlive
    · rintro ⟨i, hi, rfl⟩
      cases hi
      rw [if_pos hslot]
      exact Option.some_ne_none _
  · intro i hi
    rw [hreply] at hi
    cases hi
    rw [hslot]
    exact hnone

end Inodes

/-! ### The calls -/

section Calls

variable {g : TypeGraph} {op : Op} {symlinkTargets : ExtTreeMap InodeId SymlinkTarget}
  {quotas : ExtTreeMap DirId Quota} {provLog : Option ProvenanceLog}

/-- The old entries are among the entries with one more. -/
theorem entries_insert_sub {entries : EdgeId → Option (DirId × InodeId × String)} {e x : EdgeId}
    {v w : DirId × InodeId × String} (hvac : entries e = none) (hx : entries x = some w) :
    Function.update entries e (some v) x = some w := by
  rw [Function.update_of_ne]
  · exact hx
  · rintro rfl
    rw [hvac] at hx
    cases hx

/-- Entering a new inode is the abstract creation, whatever the symlink table, quotas and log become. -/
theorem Inv.enterInode_step (h : Inv g) {inode : Inode} {d : DirId} {n : String}
    (hi : g.nextInode < NODE_CAPACITY) (he : g.nextEdge < EDGE_CAPACITY)
    (hfree : ∀ x t, g.entries x ≠ some (d, t, n)) (hinv : Inv (g.enterInode inode d n))
    (hready : g.namespace.NameReady op)
    (hafter : entriesAfter g.namespace.entry op (.inode g.nextInode) =
      Function.update g.namespace.entry (d, n) (some g.nextInode))
    (hsymlinks : ∀ t, t ≠ g.nextInode → symlinkTargets[t]? = g.symlinkTargets[t]?) :
    g.namespace.Step op (.inode g.nextInode)
      { g.enterInode inode d n with
        symlinkTargets := symlinkTargets, quotas := quotas, provLog := provLog }.namespace := by
  have hentries := h.enterInode_entries inode d n he
  have hvac : g.entries g.nextEdge = none := h.entries_fresh le_rfl
  have hinv' := hinv.withSides g.fileData symlinkTargets g.acls quotas provLog g.capCtx
  refine step_of_creation h hinv' hready ?_ ?_ rfl
    (h.enterInode_inodes _ d n hi) rfl rfl rfl hsymlinks
  · rw [hafter]
    refine hinv'.represents.unique ?_
    change Represents _ (g.enterInode inode d n).entries
    rw [hentries]
    exact h.represents.insert hvac (h.resolveName_eq_none_iff.mpr hfree)
  · intro x w hx
    change (g.enterInode inode d n).entries x = some w
    rw [hentries]
    exact entries_insert_sub hvac hx

/-- Entering a new directory is the abstract mkdir. -/
theorem Inv.enterDir_step (h : Inv g) {inode : Inode} {d : DirId} {di : InodeId} {n : String}
    {u gr : UInt32} {p : Permissions} (hi : g.nextInode < NODE_CAPACITY)
    (he : g.nextEdge + 3 ≤ EDGE_CAPACITY) (hd : g.dirInode d = some di)
    (hfree : ∀ x t, g.entries x ≠ some (d, t, n)) (hinv : Inv (g.enterDir inode d di n)) :
    g.namespace.Step (.mkdir d n u gr p) (.created ⟨g.nextInode, some g.nextDir⟩)
      { g.enterDir inode d di n with quotas := quotas, provLog := provLog }.namespace := by
  have hentries := h.enterDir_entries inode d di n he
  have hinv' := hinv.withSettled quotas provLog
  have hfree' := h.resolveName_eq_none_iff.mpr hfree
  -- the new directory has no entries yet
  have hnew : ∀ m, g.namespace.entry (g.nextDir, m) = none := by
    intro m
    refine h.resolveName_eq_none_iff.mpr ?_
    intro x t hx
    obtain ⟨i, hi⟩ := h.shape.src_live hx
    change g.dirInode g.nextDir = some i at hi
    rw [h.dirInode_fresh le_rfl] at hi
    cases hi
  have hne : d ≠ g.nextDir := by
    rintro rfl
    rw [h.dirInode_fresh le_rfl] at hd
    cases hd
  have hdot : g.namespace.entry (d, ".") = some di := h.resolveName_iff.mpr (h.shape.dot hd)
  have hvac : g.entries g.nextEdge = none := h.entries_fresh le_rfl
  have hvac₁ : Function.update g.entries g.nextEdge (some (d, g.nextInode, n)) (g.nextEdge + 1) = none := by
    rw [Function.update_of_ne (Nat.succ_ne_self _)]
    exact h.entries_fresh (Nat.le_succ _)
  have hvac₂ : Function.update (Function.update g.entries g.nextEdge (some (d, g.nextInode, n)))
      (g.nextEdge + 1) (some (g.nextDir, g.nextInode, ".")) (g.nextEdge + 1 + 1) = none := by
    have hne₂ : g.nextEdge + 1 + 1 ≠ g.nextEdge := by omega
    rw [Function.update_of_ne (Nat.succ_ne_self _), Function.update_of_ne hne₂]
    exact h.entries_fresh (by omega)
  have hafter : entriesAfter g.namespace.entry (.mkdir d n u gr p) (.created ⟨g.nextInode, some g.nextDir⟩) =
      Function.update (Function.update (Function.update g.namespace.entry (d, n) (some g.nextInode))
        (g.nextDir, ".") (some g.nextInode)) (g.nextDir, "..") (some di) := by
    rw [← hdot]
    rfl
  have hinodes := h.enterDir_inodes inode d di n hi
  have hsymlinks : (g.enterDir inode d di n).symlinkTargets = g.symlinkTargets := rfl
  refine step_of_creation h hinv' hfree' ?_ ?_ rfl hinodes rfl rfl rfl
    (fun t _ => congrArg (fun m : ExtTreeMap InodeId SymlinkTarget => m[t]?) hsymlinks)
  · rw [hafter]
    refine hinv'.represents.unique ?_
    change Represents _ (g.enterDir inode d di n).entries
    rw [hentries]
    have h₁ := h.represents.insert (t := g.nextInode) hvac hfree'
    have h₂ := h₁.insert (d := g.nextDir) (t := g.nextInode) (n := ".") hvac₁ (by
      rw [Function.update_of_ne (fun hk => hne (congrArg Prod.fst hk).symm)]
      exact hnew ".")
    refine h₂.insert hvac₂ ?_
    rw [Function.update_of_ne (by simp), Function.update_of_ne (fun hk => hne (congrArg Prod.fst hk).symm)]
    exact hnew ".."
  · intro x w hx
    change (g.enterDir inode d di n).entries x = some w
    rw [hentries]
    exact entries_insert_sub hvac₂ (entries_insert_sub hvac₁ (entries_insert_sub hvac hx))

/-- Entering another name is the abstract link. -/
theorem Inv.enterLink_step (h : Inv g) {d : DirId} {t : InodeId} {n : String} {i : Inode}
    (he : g.nextEdge < EDGE_CAPACITY) (hfree : ∀ x t', g.entries x ≠ some (d, t', n))
    (ht : g.getInode t = some i) (hinv : Inv (g.enterLink d t n)) :
    g.namespace.Step (.link d n t) .done { g.enterLink d t n with provLog := provLog }.namespace := by
  have hentries := h.enterLink_entries (d := d) (t := t) (n := n) he
  have hvac : g.entries g.nextEdge = none := h.entries_fresh le_rfl
  have hinv' := hinv.withSettled g.quotas provLog
  have hfree' := h.resolveName_eq_none_iff.mpr hfree
  have ht' : g.inodes.data (idToArena t) = some i := by
    rwa [TypeGraph.getInode, Arena.get_eq_data] at ht
  have hinodes : (g.enterLink d t n).inodes.data = Function.update g.inodes.data (idToArena t)
      (some { i with linkCount := i.linkCount + 1 }) := by
    change (g.inodes.modify (idToArena t) _).data = _
    rw [Arena.data_modify, ht']
    rfl
  have hsame : ∀ {s}, (g.enterLink d t n).inodes.data s = none ↔ g.inodes.data s = none :=
    data_none_iff ht' hinodes
  refine step_of_making h hinv' (.relink rfl rfl rfl rfl ht' hinodes) hfree' ?_ ?_ ?_ ?_ ?_
  · refine hinv'.represents.unique ?_
    change Represents _ (g.enterLink d t n).entries
    rw [hentries]
    exact h.represents.insert hvac hfree'
  · intro x w hx
    change (g.enterLink d t n).entries x = some w
    rw [hentries]
    exact entries_insert_sub hvac hx
  · intro s j hs hnone
    rw [hsame.mp hnone] at hs
    cases hs
  · intro s hs
    constructor
    · intro hlive
      exact absurd (hsame.mpr hs) hlive
    · rintro ⟨j, hj, _⟩
      cases hj
  · intro j hj
    cases hj

/-- Taking one of several names is the abstract unlink. -/
theorem Inv.dropName_step (h : Inv g) {e d t n i} (he : g.entries e = some (d, t, n)) (hn : UserName n)
    (ht : g.getInode t = some i) (hkind : i.vtype ≠ .directory) (hmore : decrement32 i.linkCount ≠ 0)
    (hinv : Inv (g.dropName e d t)) :
    g.namespace.Step (.unlink d n) .done { g.dropName e d t with provLog := provLog }.namespace := by
  have hentries := h.dropName_entries he
  have hinodes := h.dropName_inodes he ht
  have hinv' := hinv.withSettled g.quotas provLog
  have ht' : g.inodes.data (idToArena t) = some i := by
    rwa [TypeGraph.getInode, Arena.get_eq_data] at ht
  have hsame : ∀ {s}, (g.dropName e d t).inodes.data s = none ↔ g.inodes.data s = none :=
    data_none_iff ht' hinodes
  -- another name counts for the inode, and it is no "." since the inode is no directory
  have hother : ∃ x d' t' m, UserName m ∧ (g.dropName e d t).entries x = some (d', t', m) ∧
      idToArena t' = idToArena t := by
    rw [h.decrement_link he hn ht, Finset.card_ne_zero] at hmore
    obtain ⟨x, hx⟩ := hmore
    obtain ⟨_, ⟨d', t', m⟩, hx, hslot, hm⟩ := mem_linksTo.mp hx
    rw [← hentries] at hx
    refine ⟨x, d', t', m, ⟨?_, hm⟩, hx, hslot⟩
    rintro rfl
    have hdir := hinv.shape.dir_kind (hinv.shape.dot_tgt hx)
    have hk : (g.dropName e d t).kinds (idToArena t) = some i.vtype :=
      Arena.view_eq_some.mpr ⟨{ i with linkCount := decrement32 i.linkCount },
        by rw [hinodes, Function.update_self], rfl⟩
    rw [← hslot, hinv.shape.dir_slot (hinv.shape.dot_tgt hx)] at hk
    change (g.dropName e d t).kinds t' = some .directory at hdir
    rw [hk] at hdir
    exact hkind (Option.some.inj hdir)
  obtain ⟨heq⟩ : Nonempty (g.dropName e d t = _) := ⟨h.dropName_eq he⟩
  refine step_of_taking h hinv' (.relink ?_ ?_ ?_ ?_ ht' hinodes) ⟨t, h.resolveName_iff.mpr ⟨e, he⟩⟩ ?_ rfl
    hsame.mpr ?_
  · rw [heq]
  · rw [heq]
  · rw [heq]
  · rw [heq]
  · refine hinv'.represents.unique ?_
    change Represents _ (g.dropName e d t).entries
    rw [hentries]
    exact h.represents.remove he h.shape.names
  · intro s j hs
    constructor
    · intro hnone
      rw [hsame.mp hnone] at hs
      cases hs
    · rintro ⟨⟨x, d', t', m, hm, hx, rfl⟩, hgone⟩
      exfalso
      by_cases hslot : idToArena t' = idToArena t
      · obtain ⟨y, p, t'', m', hm', hy, hyslot⟩ := hother
        exact hgone hm' hy (hyslot.trans hslot.symm)
      · refine hgone (e := x) (d := d') hm ?_ rfl
        change (g.dropName e d t).entries x = some (d', t', m)
        rw [hentries, Function.update_of_ne]
        · exact hx
        · rintro rfl
          rw [he] at hx
          cases hx
          exact hslot rfl

/-- Unlinking the last name leaves all but the pools and the indexes of the inode alone. -/
theorem Inv.dropLastName_carried (h : Inv g) {e d t n i} (he : g.entries e = some (d, t, n))
    (hn : UserName n) (ht : g.getInode t = some i) (hkind : i.vtype ≠ .directory) :
    Carried g (g.dropLastName e d t) := by
  obtain ⟨edges, blocks, heq, _⟩ := (h.dropName he hn ht hkind).collectInode_eq t
  rw [h.dropName_eq he] at heq
  have hfree := h.dropLastName_inodes he hn ht hkind
  rw [TypeGraph.dropLastName, h.dropName_eq he, heq] at hfree ⊢
  exact .free rfl rfl rfl rfl hfree

/-- Taking the last name is the abstract unlink, and it frees the inode. -/
theorem Inv.dropLastName_step (h : Inv g) {e d t n i} (he : g.entries e = some (d, t, n)) (hn : UserName n)
    (ht : g.getInode t = some i) (hkind : i.vtype ≠ .directory) (hlast : decrement32 i.linkCount = 0)
    (hinv : Inv (g.dropLastName e d t)) :
    g.namespace.Step (.unlink d n) .done
      { g.dropLastName e d t with quotas := quotas, provLog := provLog }.namespace := by
  have hentries := h.dropLastName_entries he hn ht hkind
  have hinodes := h.dropLastName_inodes he hn ht hkind
  have hinv' := hinv.withSettled quotas provLog
  have hcarried := h.dropLastName_carried he hn ht hkind
  -- no entry counts for the inode any more
  have hnone : linksTo (Function.update g.entries e none) (idToArena t) = ∅ := by
    rw [← Finset.card_eq_zero, ← h.decrement_link he hn ht, hlast]
  refine step_of_taking h hinv' ⟨hcarried.fileData, hcarried.inodeXattrs, hcarried.xattrs,
    hcarried.symlinks, hcarried.inodes⟩ ⟨t, h.resolveName_iff.mpr ⟨e, he⟩⟩ ?_ rfl ?_ ?_
  · refine hinv'.represents.unique ?_
    change Represents _ (g.dropLastName e d t).entries
    rw [hentries]
    exact h.represents.remove he h.shape.names
  · intro s hs
    change (g.dropLastName e d t).inodes.data s = none
    rw [hinodes, Function.update_apply]
    split
    · rfl
    · exact hs
  · intro s j hs
    change (g.dropLastName e d t).inodes.data s = none ↔ _
    rw [hinodes, Function.update_apply]
    constructor
    · intro hgone
      split at hgone
      · rename_i hst
        refine ⟨⟨e, d, t, n, hn, he, hst.symm⟩, ?_⟩
        intro x d' t' m hm hx hslot
        change (g.dropLastName e d t).entries x = some (d', t', m) at hx
        rw [hentries] at hx
        have hmem : x ∈ linksTo (Function.update g.entries e none) (idToArena t) :=
          mem_linksTo.mpr ⟨hinv.entry_lt (by rw [hentries, hx]), _, hx, hslot.trans hst, hm.2⟩
        rw [hnone] at hmem
        exact absurd hmem (Finset.notMem_empty x)
      · rw [hs] at hgone
        cases hgone
    · rintro ⟨⟨x, d', t', m, hm, hx, rfl⟩, hgone⟩
      by_cases hxe : x = e
      · subst hxe
        rw [he] at hx
        cases hx
        exact if_pos rfl
      · refine absurd rfl (hgone (e := x) (d := d') (t := t') hm ?_)
        change (g.dropLastName e d t).entries x = some (d', t', m)
        rw [hentries, Function.update_of_ne hxe]
        exact hx

/-- The map without the entry of a directory and without the two entries of the directory itself. -/
theorem Inv.dropDir_represents (h : Inv g) {e p n ti td} (he : g.entries e = some (p, ti, n))
    (htd : g.dirInode td = some ti) (hempty : ∀ x t m, g.entries x = some (td, t, m) → ¬ UserName m) :
    Represents (entriesAfter g.namespace.entry (.rmdir p n) .done) (g.dropDir p n ti td).entries := by
  have hentry : g.namespace.entry (p, n) = some ti := (h.represents p n ti).mpr ⟨e, he⟩
  have hdot : ∀ d, g.namespace.entry (d, ".") = some ti ↔ d = td := by
    intro d
    rw [h.represents d "." ti]
    constructor
    · rintro ⟨x, hx⟩
      exact h.shape.dir_inj (h.shape.dot_tgt hx) htd
    · rintro rfl
      exact h.shape.dot htd
  intro d' n' t'
  change (if _ then none else g.namespace.entry (d', n')) = some t' ↔ _
  rw [hentry]
  constructor
  · intro hm
    split at hm
    · cases hm
    · rename_i hk
      obtain ⟨x, hx⟩ := (h.represents d' n' t').mp hm
      refine ⟨x, (h.dropDir_entries he htd).mpr ⟨?_, ?_, hx⟩⟩
      · rintro rfl
        rw [he] at hx
        cases hx
        exact hk (.inl rfl)
      · rintro hd
        change d' = td at hd
        subst hd
        exact hk (.inr ⟨(hdot d').mpr rfl, hempty x t' n' hx⟩)
  · rintro ⟨x, hx⟩
    obtain ⟨hxe, hd, hx⟩ := (h.dropDir_entries he htd).mp hx
    rw [if_neg]
    · exact (h.represents d' n' t').mpr ⟨x, hx⟩
    · rintro (hk | ⟨hk, _⟩)
      · cases hk
        exact hxe (h.shape.names hx he)
      · exact hd ((hdot d').mp hk)

/-- Taking an empty directory is the abstract rmdir. -/
theorem Inv.dropDir_step (h : Inv g) {e p n ti td} (he : g.entries e = some (p, ti, n)) (hn : UserName n)
    (htd : g.dirInode td = some ti) (hempty : ∀ x t m, g.entries x = some (td, t, m) → ¬ UserName m)
    (hinv : Inv (g.dropDir p n ti td)) :
    g.namespace.Step (.rmdir p n) .done
      { g.dropDir p n ti td with quotas := quotas, provLog := provLog }.namespace := by
  have hinodes := h.dropDir_inodes he htd
  have hinv' := hinv.withSettled quotas provLog
  have hslot : idToArena ti = ti := h.shape.dir_slot htd
  have hcarried : Carried g (g.dropDir p n ti td) := by
    obtain ⟨_, _, _, _, heq, _⟩ := h.dropDir_eq he htd
    rw [heq] at hinodes ⊢
    exact .free rfl rfl rfl rfl hinodes
  refine step_of_taking h hinv' ⟨hcarried.fileData, hcarried.inodeXattrs, hcarried.xattrs,
    hcarried.symlinks, hcarried.inodes⟩ ⟨ti, h.resolveName_iff.mpr ⟨e, he⟩⟩ ?_ rfl ?_ ?_
  · exact hinv'.represents.unique (h.dropDir_represents he htd hempty)
  · intro s hs
    change (g.dropDir p n ti td).inodes.data s = none
    rw [hinodes, Function.update_apply]
    split
    · rfl
    · exact hs
  · intro s j hs
    change (g.dropDir p n ti td).inodes.data s = none ↔ _
    rw [hinodes, Function.update_apply]
    constructor
    · intro hgone
      split at hgone
      · rename_i hst
        subst hst
        refine ⟨⟨e, p, s, n, hn, he, hslot⟩, ?_⟩
        intro x d' t' m hm hx hxslot
        obtain ⟨hxe, _, hx'⟩ := (h.dropDir_entries he htd).mp hx
        -- a directory is reached through its own id, and through one user name
        obtain ⟨k, hk, hown⟩ := h.shape.tgt_live hx'
        change idToArena t' = s at hxslot
        rw [hxslot, h.shape.dir_kind htd] at hk
        have ht' : t' = s := (hown (Option.some.inj hk).symm).symm.trans hxslot
        subst ht'
        exact hxe (h.shape.entry_unique htd hm hn hx' he)
      · rw [hs] at hgone
        cases hgone
    · rintro ⟨⟨x, d', t', m, hm, hx, rfl⟩, hgone⟩
      by_cases hxe : x = e
      · subst hxe
        rw [he] at hx
        cases hx
        exact if_pos hslot
      · refine absurd rfl (hgone (e := x) (d := d') (t := t') hm ?_)
        refine (h.dropDir_entries he htd).mpr ⟨hxe, ?_, hx⟩
        rintro hd
        change d' = td at hd
        subst hd
        exact hempty x t' m hx hm

end Calls

/-- A graph has finitely many entries. -/
theorem Inv.entries_finite {g : TypeGraph} (h : Inv g) : {k | g.namespace.entry k ≠ none}.Finite := by
  refine ((Finset.range EDGE_CAPACITY).finite_toSet.image fun e =>
    ((g.entries e).map fun w => (w.1, w.2.2)).getD (0, "")).subset ?_
  rintro ⟨d, n⟩ hk
  obtain ⟨t, ht⟩ := Option.ne_none_iff_exists'.mp hk
  obtain ⟨e, he⟩ := (h.represents d n t).mp ht
  refine ⟨e, Finset.mem_coe.mpr (Finset.mem_range.mpr (h.entry_lt he)), ?_⟩
  change ((g.entries e).map _).getD _ = (d, n)
  rw [he]
  rfl

/-- Every successful call that makes or takes a name is the abstract step of its name. -/
theorem Inv.namespace_step {g : TypeGraph} (h : Inv g) {now : Nat → Timestamp} {op : Op} {r : Reply}
    (hop : op.MakesOrTakesName) (hdirs : op.LiveDirs g) (hacc : Accepted g (op.apply now g).2)
    (hok : (op.apply now g).1 = .ok r) : g.namespace.Step op r (op.apply now g).2.namespace := by
  cases op with
  | createFile d n u gr p =>
      rcases createFile_spec h (hdirs d (by simp [Op.dirs])) (hacc.fits h) with
        ⟨o, hfail, heq⟩ | ⟨_, hfree, hi, he, hinv, q, l, heq⟩
      · rw [Op.apply, heq] at hok
        exact absurd hok (Outcome.map_ne_ok hfail _ _)
      · rw [Op.apply, heq] at hok ⊢
        cases hok
        exact h.enterInode_step hi he hfree hinv (h.resolveName_eq_none_iff.mpr hfree) rfl fun _ _ => rfl
  | mkdir d n u gr p =>
      rcases mkdir_spec h (hdirs d (by simp [Op.dirs])) (hacc.fits h) with
        ⟨o, hfail, heq⟩ | ⟨_, hfree, hi, _, he, di, hdi, hinv, q, l, heq⟩
      · rw [Op.apply, heq] at hok
        exact absurd hok (Outcome.map_ne_ok hfail _ _)
      · rw [Op.apply, heq] at hok ⊢
        cases hok
        exact h.enterDir_step hi he hdi hfree hinv
  | symlink d n t u gr =>
      rcases symlink_spec h (hdirs d (by simp [Op.dirs])) (hacc.fits h) with
        ⟨o, hfail, heq⟩ | ⟨_, hfree, hi, he, hinv, q, l, heq⟩
      · rw [Op.apply, heq] at hok
        exact absurd hok (Outcome.map_ne_ok hfail _ _)
      · rw [Op.apply, heq] at hok ⊢
        cases hok
        refine h.enterInode_step hi he hfree (hinv.withSides _ g.symlinkTargets _ _ _ _)
          (h.resolveName_eq_none_iff.mpr hfree) rfl ?_
        intro x hx
        change (g.symlinkTargets.insert g.nextInode ⟨t⟩)[x]? = g.symlinkTargets[x]?
        rw [ExtTreeMap.getElem?_insert, if_neg]
        intro hcmp
        exact hx (Std.compare_eq_iff_eq.mp hcmp).symm
  | link d n t =>
      rcases link_spec h (hdirs d (by simp [Op.dirs])) (hacc.fits h) with
        ⟨o, hfail, heq⟩ | ⟨_, hfree, he, i, hi, _, hinv, l, heq⟩
      · rw [Op.apply, heq] at hok
        exact absurd hok (Outcome.map_ne_ok hfail _ _)
      · rw [Op.apply, heq] at hok ⊢
        cases hok
        exact h.enterLink_step he hfree hi hinv
  | unlink d n =>
      rcases unlink_spec now d n h with
        ⟨o, hfail, heq⟩ | ⟨e, t, i, hn, he, hi, hkind, ⟨hmore, hinv, l, heq⟩ | ⟨hlast, hinv, q, l, heq⟩⟩
      · rw [Op.apply, heq] at hok
        exact absurd hok (Outcome.map_ne_ok hfail _ _)
      · rw [Op.apply, heq] at hok ⊢
        cases hok
        exact h.dropName_step he hn hi hkind hmore hinv
      · rw [Op.apply, heq] at hok ⊢
        cases hok
        exact h.dropLastName_step he hn hi hkind hlast hinv
  | rmdir d n =>
      rcases rmdir_spec now d n h with
        ⟨o, hfail, heq⟩ | ⟨e, ti, td, hn, he, htd, hempty, hinv, q, l, heq⟩
      · rw [Op.apply, heq] at hok
        exact absurd hok (Outcome.map_ne_ok hfail _ _)
      · rw [Op.apply, heq] at hok ⊢
        cases hok
        exact h.dropDir_step he hn htd hempty hinv
  | rename | writeBlock | writeData | truncate | chmod | chown | setxattr | removexattr | setacl
  | setQuota => exact absurd hop id

/-- A reachable graph refines the namespace: its entries are finitely many, list_dir lists those of its
    directory, each once, and every successful call that makes or takes a name is the abstract step. -/
theorem namespace_refined {g : TypeGraph} (hg : Reachable g) :
    {k | g.namespace.entry k ≠ none}.Finite ∧
    (∀ d, ((g.listDir d).map Prod.fst).Nodup ∧
      ∀ n t, (n, t) ∈ g.listDir d ↔ g.namespace.entry (d, n) = some t) ∧
    ∀ now op r, op.MakesOrTakesName → InCapacityCall g op (op.apply now g).2 →
      (op.apply now g).1 = .ok r → g.namespace.Step op r (op.apply now g).2.namespace :=
  ⟨hg.inv.entries_finite, hg.inv.listDir_spec,
    fun _ _ _ hop hcall hok => hg.inv.namespace_step hop hcall.1 hcall.2 hok⟩

/-- The removal of a directory next to a file with two names, and the unlink of one of the names. -/
theorem namespace_refined_unlinked :
    let g := (TypeGraph.new 0).calls (fun _ => 0)
      [.createFile 1 "a" 0 0 .fileDefault, .link 1 "b" 2, .mkdir 1 "c" 0 0 .dirDefault]
    g.namespace.Step (.rmdir 1 "c") .done ((Op.rmdir 1 "c").apply (fun _ => 0) g).2.namespace ∧
      g.namespace.Step (.unlink 1 "a") .done ((Op.unlink 1 "a").apply (fun _ => 0) g).2.namespace :=
  have hsteps := (namespace_refined (Run.calls
    [.createFile 1 "a" 0 0 .fileDefault, .link 1 "b" 2, .mkdir 1 "c" 0 0 .dirDefault] (.new 0)
    (by decide))).2.2
  ⟨hsteps (fun _ => 0) (.rmdir 1 "c") .done trivial (by decide) (by decide),
    hsteps (fun _ => 0) (.unlink 1 "a") .done trivial (by decide) (by decide)⟩

end SotFs
