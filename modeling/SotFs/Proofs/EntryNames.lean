/-
Module: SotFs.Proofs.EntryNames
Layer: Proofs
Purpose: Which names directories carry. Create, mkdir and symlink check the name they enter; link and rename
  refuse "." and ".." only, so that a separator, a NUL or the empty name gets in through them. Along the runs
  whose links and renames enter valid names, every name is one that a path can spell, whether the pools have
  room or not, and while they have room every entry is reached by a path.
Trusted boundary: none
Main exports: ValidName, EntryName, Op.Enters, NamesWithin, Op.namesWithin, TypeGraph.PathReaches, entry_names_valid
-/
import SotFs.Proofs.EntryLabels
import SotFs.Proofs.NameIndex

namespace SotFs

open Std (ExtTreeMap ExtTreeSet)
open Relation Foundation

/-- A non-empty name with neither a separator nor a NUL. -/
def ValidName (n : String) : Prop := n ≠ "" ∧ '/' ∉ n.toList ∧ Char.ofNat 0 ∉ n.toList

instance (n : String) : Decidable (ValidName n) := inferInstanceAs (Decidable (_ ∧ _))

/-- What a directory may carry: the two entries of its own and valid names. -/
def EntryName (n : String) : Prop := n = "." ∨ n = ".." ∨ ValidName n

instance (n : String) : Decidable (EntryName n) := inferInstanceAs (Decidable (_ ∨ _))

/-- What create, mkdir and symlink check. -/
theorem invalidName_eq_false {n : String} : invalidName n = false ↔ UserName n ∧ ValidName n := by
  unfold invalidName UserName ValidName
  simp only [Bool.or_eq_false_iff, decide_eq_false_iff_not, List.contains_eq_mem,
    String.isEmpty_eq_false_iff]
  tauto

/-- The name that a call enters without having checked it: a link that passes its checks, and a rename to a
    name that is free. -/
def Op.Enters (g : TypeGraph) : Op → String → Prop
  | .link d n t, m => m = n ∧ g.CanLink d n t
  | .rename sd sn dd dn, m =>
      m = dn ∧ g.requireCap Rights.write = .ok () ∧ UserName sn ∧ UserName dn ∧
        g.resolveName dd dn = none ∧
        ∃ s, g.resolveName sd sn = some s ∧ (sd ≠ dd → g.wouldCycle s dd = false)
  | _, _ => False

/-! ### The names of a graph under the low-level writes -/

/-- Every name that a stored edge carries and every name that the index has a key for satisfies `P`. -/
structure NamesWithin (P : String → Prop) (g : TypeGraph) : Prop where
  edges : ∀ {s id d t n}, g.edges.data s = some (.contains id d t n) → P n
  index : ∀ {d n}, (d, n) ∈ g.dirNameIdx → P n

namespace NamesWithin

variable {P : String → Prop} {g g' : TypeGraph}

/-- A condition on names alone, for the stored entries and for the index. -/
theorem iff_labelsWithin : NamesWithin P g ↔ LabelsWithin (fun _ => P) (fun _ => P) g :=
  ⟨fun h => ⟨h.edges, h.index⟩, fun h => ⟨h.edges, h.index⟩⟩

/-- Nothing but the edge pool and the name index matters. -/
theorem congr (h : NamesWithin P g) (hedges : g'.edges = g.edges) (hindex : g'.dirNameIdx = g.dirNameIdx) :
    NamesWithin P g' := iff_labelsWithin.mpr ((iff_labelsWithin.mp h).congr hedges hindex)

/-- A name that is looked up with success is one of the graph. -/
theorem of_resolveName (h : NamesWithin P g) {d : DirId} {n : String} {t : InodeId}
    (hres : g.resolveName d n = some t) : P n := by
  unfold TypeGraph.resolveName at hres
  split at hres
  · rename_i id src tgt name hlookup
    unfold TypeGraph.lookupName at hlookup
    split at hlookup
    · split at hlookup
      · rename_i hget
        exact h.index (ExtTreeMap.mem_iff_isSome_getElem?.mpr (by rw [hget]; rfl))
      · cases hlookup
    · obtain ⟨entry, hfind, _⟩ := Option.bind_eq_some_iff.mp hlookup
      have hname : entry.2.2 = n := by simpa using List.find?_some hfind
      obtain ⟨e, _, hentry⟩ := List.mem_filterMap.mp (List.mem_of_find?_eq_some hfind)
      split at hentry
      · rename_i hget
        rw [TypeGraph.getEdge, Arena.get_eq_data] at hget
        cases hentry
        exact hname ▸ h.edges hget
      · cases hentry
  · cases hres

/-- The names that list_dir shows are names of the graph. -/
theorem of_listDir (h : NamesWithin P g) {d : DirId} {n : String} {t : InodeId}
    (hmem : (n, t) ∈ g.listDir d) : P n := by
  obtain ⟨entry, hentry, heq⟩ := List.mem_map.mp hmem
  obtain ⟨e, _, hget⟩ := List.mem_filterMap.mp hentry
  split at hget
  · rename_i hedge
    rw [TypeGraph.getEdge, Arena.get_eq_data] at hedge
    cases hget
    cases heq
    exact h.edges hedge
  · cases hget

end NamesWithin

/-- Every call keeps the names within the valid ones and the two of a directory's own, unless it enters
    another one unchecked. -/
theorem Op.namesWithin {now : Nat → Timestamp} {op : Op} {g : TypeGraph} (h : NamesWithin EntryName g)
    (henters : ∀ n, op.Enters g n → ValidName n) : NamesWithin EntryName (op.apply now g).2 := by
  have hmade : ∀ {n}, invalidName n = false → EntryName n := fun hn =>
    .inr (.inr (invalidName_eq_false.mp hn).2)
  -- the new name of a rename is taken, hence one of the graph already, or it is entered
  have hrenamed : ∀ {sd sn dd dn}, op = .rename sd sn dd dn → g.Renames sd sn dd dn → EntryName dn := by
    rintro sd sn dd dn rfl ⟨hcap, hsn, hdn, hsource⟩
    cases hdst : g.resolveName dd dn with
    | some t => exact h.of_resolveName hdst
    | none => exact .inr (.inr (henters dn ⟨rfl, hcap, hsn, hdn, hdst, hsource⟩))
  have hputs : ∀ d n, op.Puts g d n → EntryName n := by
    intro d n hput
    cases op with
    | createFile | symlink =>
        obtain ⟨_, rfl, hn, _⟩ := hput
        exact hmade hn
    | mkdir =>
        rcases hput with ⟨_, rfl, hn, _⟩ | ⟨_, rfl | rfl⟩
        · exact hmade hn
        · exact .inl rfl
        · exact .inr (.inl rfl)
    | link =>
        obtain ⟨_, rfl, hlink⟩ := hput
        exact .inr (.inr (henters _ ⟨rfl, hlink⟩))
    | rename =>
        obtain ⟨_, rfl, hrenames⟩ := hput
        exact hrenamed rfl hrenames
    | _ => exact absurd hput id
  refine NamesWithin.iff_labelsWithin.mpr (op.labelsWithin (NamesWithin.iff_labelsWithin.mp h)
    (fun d n hput => ⟨hputs d n hput, hputs d n hput⟩) fun d sn dn heq hrenames _ _ => ?_)
  exact ⟨hrenamed heq hrenames, hrenamed heq hrenames⟩

/-! ### Paths -/

/-- The path that spells a list of components. -/
def joinPath (components : List String) : String :=
  String.ofList (['/'].intercalate (components.map String.toList))

/-- A path of components without separators is walked component by component. -/
theorem pathComponents_joinPath {components : List String} (hne : components ≠ [])
    (hsep : ∀ c ∈ components, '/' ∉ c.toList) :
    TypeGraph.pathComponents (joinPath components) = components.filter fun c => c ≠ "" && c ≠ "." := by
  have hsplit : (joinPath components).toList.splitOn '/' = components.map String.toList := by
    rw [joinPath, String.toList_ofList]
    refine List.splitOn_intercalate '/' ?_ (by simpa using hne)
    intro l hl
    obtain ⟨c, hc, rfl⟩ := List.mem_map.mp hl
    exact hsep c hc
  have hback : (components.map String.toList).map String.ofList = components := by
    rw [List.map_map]
    conv_rhs => rw [← List.map_id components]
    exact List.map_congr_left fun c _ => String.ofList_toList
  rw [TypeGraph.pathComponents, hsplit, hback]

/-- Some path leads to the inode. -/
def TypeGraph.PathReaches (g : TypeGraph) (t : InodeId) : Prop :=
  ∃ path dir, g.resolvePath path = .ok (dir, t)

section Paths

variable {g : TypeGraph}

/-- A component that names a directory leads into it. -/
theorem Inv.resolveComponent_dir (h : Inv g) {d c : DirId} {i j : InodeId} {n : String}
    (hn : n ≠ "..") (hres : g.resolveName d n = some i) (hc : g.dirInode c = some i) :
    g.resolveComponent (d, j) n = .ok (c, i) := by
  obtain ⟨inode, hinode, hkind⟩ := h.getInode_of_dir hc
  have hdir : g.dirForInode i = some c := h.dirForInode_iff.mpr hc
  unfold TypeGraph.resolveComponent
  rw [if_neg hn]
  simp only [hres, hinode, if_pos hkind, hdir]

/-- A component that names an inode leads to it. -/
theorem Inv.resolveComponent_entry (h : Inv g) {d : DirId} {e : EdgeId} {t j : InodeId} {n : String}
    (he : g.entries e = some (d, t, n)) (hn : n ≠ "..") :
    ∃ c, g.resolveComponent (d, j) n = .ok (c, t) := by
  have hres : g.resolveName d n = some t := h.resolveName_iff.mpr ⟨e, he⟩
  obtain ⟨i, hi⟩ := h.getInode_of_entry he
  by_cases hkind : i.vtype = .directory
  · obtain ⟨c, hc⟩ := h.dir_of_entry he hi hkind
    exact ⟨c, h.resolveComponent_dir hn hres hc⟩
  · refine ⟨d, ?_⟩
    unfold TypeGraph.resolveComponent
    rw [if_neg hn]
    simp only [hres, hi, if_neg hkind]

/-- The ".." of a directory leads to its parent. -/
theorem Inv.resolveComponent_dotdot (h : Inv g) {d : DirId} {e : EdgeId} {t j : InodeId}
    (he : g.entries e = some (d, t, "..")) : ∃ c, g.resolveComponent (d, j) ".." = .ok (c, t) := by
  obtain ⟨di, hdi⟩ := h.shape.src_live he
  have hroot : d ≠ g.rootDir := by
    rintro rfl
    exact h.shape.root_dotdot he
  obtain ⟨p, pi, e₁, n, e₂, hp, hn, he₁, he₂⟩ := h.shape.parent hdi hroot
  have hp' : g.dirInode p = some t := h.shape.dotdot hdi hn he₁ he
  refine ⟨p, ?_⟩
  have hres : g.resolveName d ".." = some t := h.resolveName_iff.mpr ⟨e, he⟩
  have hdir : g.dirForInode t = some p := h.dirForInode_iff.mpr hp'
  unfold TypeGraph.resolveComponent
  simp only [if_pos, hres, hdir]

/-- The names on the way from the root to a directory. -/
theorem Inv.walk_to_dir (h : Inv g) (hnames : NamesWithin EntryName g) {d : DirId}
    (hd : ReflTransGen g.shape.Child g.rootDir d) :
    ∃ (names : List String) (di : InodeId), g.dirInode d = some di ∧
      (∀ n ∈ names, UserName n ∧ ValidName n) ∧
      names.foldlM g.resolveComponent (g.rootDir, g.rootInode) = .ok (d, di) := by
  induction hd with
  | refl => exact ⟨[], g.rootInode, h.shape.root, fun _ hn => absurd hn List.not_mem_nil, rfl⟩
  | @tail b c _ hchild ih =>
      obtain ⟨names, bi, _, hvalid, hwalk⟩ := ih
      obtain ⟨e, n, ci, hci, hn, he⟩ := hchild
      have hn' : ValidName n := by
        rcases hnames.edges (h.entries_iff.mp he) with rfl | rfl | hn'
        · exact absurd rfl hn.1
        · exact absurd rfl hn.2
        · exact hn'
      refine ⟨names ++ [n], ci, hci, ?_, ?_⟩
      · intro m hm
        rcases List.mem_append.mp hm with hm | hm
        · exact hvalid m hm
        · exact List.mem_singleton.mp hm ▸ ⟨hn, hn'⟩
      · rw [List.foldlM_append, hwalk]
        change g.resolveComponent (b, bi) n >>= pure = _
        rw [h.resolveComponent_dir hn.2 (h.resolveName_iff.mpr ⟨e, he⟩) hci]
        rfl

/-- Every entry with a name that a path can spell is reached by one. -/
theorem Inv.pathReaches (h : Inv g) (hnames : NamesWithin EntryName g) {e : EdgeId} {d : DirId}
    {t : InodeId} {n : String} (he : g.entries e = some (d, t, n)) : g.PathReaches t := by
  obtain ⟨di, hdi⟩ := h.shape.src_live he
  obtain ⟨names, di', hdi', hvalid, hwalk⟩ := h.walk_to_dir hnames (h.shape.rooted hdi)
  have hname : '/' ∉ n.toList ∧ n ≠ "" := by
    rcases hnames.edges (h.entries_iff.mp he) with rfl | rfl | hn
    · decide
    · decide
    · exact ⟨hn.2.1, hn.1⟩
  have hcomponents : TypeGraph.pathComponents (joinPath (names ++ [n])) =
      names ++ [n].filter fun c => c ≠ "" && c ≠ "." := by
    rw [pathComponents_joinPath (by simp) ?_, List.filter_append]
    · congr 1
      refine List.filter_eq_self.mpr ?_
      intro m hm
      obtain ⟨hm₁, hm₂⟩ := hvalid m hm
      simp [hm₁.1, hm₂.1]
    · intro c hc
      rcases List.mem_append.mp hc with hc | hc
      · exact (hvalid c hc).2.2.1
      · exact List.mem_singleton.mp hc ▸ hname.1
  refine ⟨joinPath (names ++ [n]), ?_⟩
  unfold TypeGraph.resolvePath
  rw [hcomponents, List.foldlM_append, hwalk]
  by_cases hdot : n = "."
  · subst hdot
    have ht : g.dirInode d = some t := h.shape.dot_tgt he
    rw [hdi'] at ht
    cases ht
    exact ⟨d, rfl⟩
  · have hlast : ([n].filter fun c => c ≠ "" && c ≠ ".") = [n] := by simp [hname.2, hdot]
    rw [hlast]
    have hstep : ∃ c, g.resolveComponent (d, di') n = .ok (c, t) := by
      by_cases hdotdot : n = ".."
      · subst hdotdot
        exact h.resolveComponent_dotdot he
      · exact h.resolveComponent_entry he hdotdot
    obtain ⟨c, hc⟩ := hstep
    refine ⟨c, ?_⟩
    change g.resolveComponent (d, di') n >>= pure = _
    rw [hc]
    rfl

end Paths

/-! ### Runs -/

/-- A link or a rename enters a valid name, if it enters one. -/
def Op.EntersValid (g : TypeGraph) (op : Op) : Prop := ∀ n, op.Enters g n → ValidName n

theorem namesWithin_new (now : Timestamp) : NamesWithin EntryName (TypeGraph.new now) where
  edges := by
    intro s id d t n hs
    rcases Arena.data_insertAt_or (a := TypeGraph.empty.edges) hs with hnew | hold
    · cases hnew
      exact .inl rfl
    · cases hold
  index := by
    intro d n hk
    change (d, n) ∈ TypeGraph.empty.dirNameIdx.insert (1, ".") 1 at hk
    rcases ExtTreeMap.mem_insert.mp hk with hcmp | hold
    · cases Std.LawfulEqCmp.eq_of_compare hcmp
      exact .inl rfl
    · exact absurd hold ExtTreeMap.not_mem_empty

/-- Along a run whose links and renames enter valid names, every name is valid, whether the pools have room
    or not. -/
theorem Run.namesWithin {allowed : TypeGraph → Op → TypeGraph → Prop}
    (hallowed : ∀ g op g', allowed g op g' → op.EntersValid g) {g : TypeGraph} (hrun : Run allowed g) :
    NamesWithin EntryName g := by
  induction hrun with
  | new now => exact namesWithin_new now
  | call now op _ hcall ih => exact Op.namesWithin ih (hallowed _ _ _ hcall)
  | setCapCtx ctx _ ih => exact ih.congr rfl rfl
  | enableProvLog _ ih => exact ih.congr rfl rfl
  | disableProvLog _ ih => exact ih.congr rfl rfl

/-- Along every run whose links and renames enter valid names, list_dir shows and lookup finds no other
    names; and while no insertion is refused, some path leads to whatever list_dir shows. -/
theorem entry_names_valid {g : TypeGraph} (hrun : Run (fun g op _ => op.EntersValid g) g) :
    (∀ d n t, (n, t) ∈ g.listDir d → EntryName n) ∧
    (∀ d n t, g.resolveName d n = some t → EntryName n) ∧
    (Reachable g → ∀ d n t, (n, t) ∈ g.listDir d → g.PathReaches t) := by
  have hnames := hrun.namesWithin fun _ _ _ hvalid => hvalid
  refine ⟨fun _ _ _ => hnames.of_listDir, fun _ _ _ => hnames.of_resolveName, ?_⟩
  intro hg d n t hmem
  obtain ⟨⟨e, t', n'⟩, hentry, heq⟩ := List.mem_map.mp hmem
  cases heq
  exact hg.inv.pathReaches hnames (hg.inv.mem_dirEntries.mp hentry)

/-- A link and a rename that enter valid names, below a directory. -/
theorem entry_names_valid_linked :
    let g := (TypeGraph.new 0).calls (fun _ => 0)
      [.mkdir 1 "d" 0 0 .dirDefault, .createFile 2 "a" 0 0 .fileDefault, .link 1 "b" 3, .rename 1 "b" 2 "c"]
    EntryName "c" ∧ g.PathReaches 3 := by
  have hrun : Run (fun g op g' => InCapacityCall g op g' ∧ op.EntersValid g) ((TypeGraph.new 0).calls
      (fun _ => 0) [.mkdir 1 "d" 0 0 .dirDefault, .createFile 2 "a" 0 0 .fileDefault, .link 1 "b" 3,
        .rename 1 "b" 2 "c"]) := by
    refine Run.calls _ (.new 0) ⟨⟨by decide, ?_⟩, ⟨by decide, ?_⟩, ⟨by decide, ?_⟩, ⟨by decide, ?_⟩, trivial⟩
    · intro n hn
      exact absurd hn id
    · intro n hn
      exact absurd hn id
    · rintro n ⟨rfl, _⟩
      decide
    · rintro n ⟨rfl, _⟩
      decide
  have hvalid := entry_names_valid (hrun.mono fun _ _ _ hcall => hcall.2)
  have hreach := hvalid.2.2 (hrun.mono fun _ _ _ hcall => hcall.1)
  exact ⟨hvalid.1 2 "c" 3 (by decide), hreach 2 "c" 3 (by decide)⟩

/-- A link under a name with a separator: the directory carries it and the name leads to the file. -/
theorem entry_name_with_separator :
    let g := (TypeGraph.new 0).calls (fun _ => 0) [.createFile 1 "a" 0 0 .fileDefault, .link 1 "b/c" 2]
    Reachable g ∧ ("b/c", 2) ∈ g.listDir 1 ∧ ¬ EntryName "b/c" :=
  ⟨Run.calls _ (.new 0) (by decide), by decide, by decide⟩

end SotFs
