/-
Module: SotFs.Proofs.Paths
Layer: Proofs
Purpose: Path resolution against the walk that a path stands for. A component leads from a directory to a
  directory, or to something else, at which the walk has to end. Resolution does not look whether it has
  ended: past a file it goes on in the directory that holds the file, and answers for a path that leads
  nowhere. Cutting a path at its last separator and resolving the two parts agrees with resolving the whole.
Trusted boundary: none
Main exports: TypeGraph.Goes, TypeGraph.Stops, TypeGraph.Walk, TypeGraph.Drifts, resolvePath_walks,
  resolvePath_parent
-/
import SotFs.Core.Paths
import SotFs.Proofs.EntryNames

namespace SotFs

open Std (ExtTreeMap ExtTreeSet)
open Relation Foundation

namespace TypeGraph

/-- The component `n` leads from the directory `d` to the directory `c`, whose inode is `ci`. -/
def Goes (g : TypeGraph) (d : DirId) (n : String) (c : DirId) (ci : InodeId) : Prop :=
  g.dirInode c = some ci ∧
    ((n = ".." ∧ ((d = g.rootDir ∧ c = d) ∨ g.shape.Child c d)) ∨
      (n ≠ ".." ∧ ∃ e, g.entries e = some (d, ci, n)))

/-- The component `n` leads from the directory `d` to an inode that is no directory. -/
def Stops (g : TypeGraph) (d : DirId) (n : String) (t : InodeId) : Prop :=
  n ≠ ".." ∧ (∃ e, g.entries e = some (d, t, n)) ∧ ∀ c, g.dirInode c ≠ some t

/-- The walk of a list of components from a directory, given with its inode: to a directory with its own
    inode, or to another inode in the directory that holds it. -/
inductive Walk (g : TypeGraph) : DirId × InodeId → List String → DirId × InodeId → Prop where
  | here (place : DirId × InodeId) : Walk g place [] place
  | goes {d i n c ci cs r} : g.Goes d n c ci → Walk g (c, ci) cs r → Walk g (d, i) (n :: cs) r
  | stops {d i n t} : g.Stops d n t → Walk g (d, i) [n] (d, t)

/-- The components can be looked up one after the other when what is no directory is passed over. -/
inductive Skips (g : TypeGraph) : DirId → List String → Prop where
  | here (d : DirId) : Skips g d []
  | goes {d n c ci cs} : g.Goes d n c ci → Skips g c cs → Skips g d (n :: cs)
  | stops {d n t cs} : g.Stops d n t → Skips g d cs → Skips g d (n :: cs)

/-- The walk meets something that is no directory before its end, and what is left can be looked up from the
    directory that holds it. -/
inductive Drifts (g : TypeGraph) : DirId → List String → Prop where
  | goes {d n c ci cs} : g.Goes d n c ci → Drifts g c cs → Drifts g d (n :: cs)
  | here {d n t m cs} : g.Stops d n t → Skips g d (m :: cs) → Drifts g d (n :: m :: cs)

end TypeGraph

section Steps

variable {g : TypeGraph} {d : DirId} {i j : InodeId} {n : String}

/-- The root has no parent. -/
theorem Inv.not_child_root (h : Inv g) {p : DirId} : ¬ g.shape.Child p g.rootDir := by
  rintro ⟨e, n, i, hi, hn, he⟩
  have hroot : g.dirInode g.rootDir = some g.rootInode := h.shape.root
  change g.dirInode g.rootDir = some i at hi
  rw [hroot] at hi
  cases hi
  exact h.shape.root_entry hn he

theorem Inv.goes_unique (h : Inv g) {c c' : DirId} {ci ci' : InodeId} (hc : g.Goes d n c ci)
    (hc' : g.Goes d n c' ci') : c = c' ∧ ci = ci' := by
  have hsame : c = c' := by
    obtain ⟨hlive, ⟨hn, hup⟩ | ⟨hn, e, he⟩⟩ := hc
    · obtain ⟨_, ⟨_, hup'⟩ | ⟨hn', _⟩⟩ := hc'
      · rcases hup with ⟨rfl, rfl⟩ | hup <;> rcases hup' with ⟨hroot, rfl⟩ | hup'
        · rfl
        · exact absurd hup' h.not_child_root
        · exact absurd (hroot ▸ hup) h.not_child_root
        · exact h.shape.tree.parent_unique hup hup'
      · exact absurd hn hn'
    · obtain ⟨hlive', ⟨hn', _⟩ | ⟨_, e', he'⟩⟩ := hc'
      · exact absurd hn' hn
      · have heq := h.shape.names he he'
        subst heq
        rw [he] at he'
        cases he'
        exact h.shape.dir_inj hlive hlive'
  subst hsame
  exact ⟨rfl, Option.some.inj (hc.1.symm.trans hc'.1)⟩

theorem Inv.not_goes_stops (h : Inv g) {c : DirId} {ci t : InodeId} (hc : g.Goes d n c ci)
    (ht : g.Stops d n t) : False := by
  obtain ⟨hlive, ⟨hn, _⟩ | ⟨_, e, he⟩⟩ := hc
  · exact ht.1 hn
  · obtain ⟨_, ⟨e', he'⟩, hfile⟩ := ht
    have heq := h.shape.names he he'
    subst heq
    rw [he] at he'
    cases he'
    exact hfile c hlive

theorem Inv.stops_unique (h : Inv g) {t t' : InodeId} (ht : g.Stops d n t) (ht' : g.Stops d n t') : t = t' := by
  obtain ⟨_, ⟨e, he⟩, _⟩ := ht
  obtain ⟨_, ⟨e', he'⟩, _⟩ := ht'
  have heq := h.shape.names he he'
  subst heq
  rw [he] at he'
  cases he'
  rfl

/-- What resolution does with a component in a live directory: it goes to a directory, it stays at what is no
    directory, or it fails. At the root it keeps the inode it came with. -/
theorem Inv.resolveComponent_cases (h : Inv g) (hd : g.dirInode d = some i) (j : InodeId) (n : String) :
    (∃ c ci j', g.Goes d n c ci ∧ g.resolveComponent (d, j) n = .ok (c, j') ∧
      (j = i ∨ n ≠ ".." → j' = ci)) ∨
    (∃ t, g.Stops d n t ∧ g.resolveComponent (d, j) n = .ok (d, t)) ∨
    ((∀ c ci, ¬ g.Goes d n c ci) ∧ (∀ t, ¬ g.Stops d n t) ∧ ∃ e, g.resolveComponent (d, j) n = .error e) := by
  by_cases hn : n = ".."
  · subst hn
    left
    by_cases hroot : d = g.rootDir
    · refine ⟨d, i, j, ⟨hd, .inl ⟨rfl, .inl ⟨hroot, rfl⟩⟩⟩, ?_, fun hor => hor.resolve_right (absurd rfl)⟩
      have hnone : g.resolveName d ".." = none := by
        refine h.resolveName_eq_none_iff.mpr fun e t he => ?_
        subst hroot
        exact h.shape.root_dotdot he
      unfold TypeGraph.resolveComponent
      simp only [if_pos, hnone]
    · obtain ⟨p, pi, e, m, e', hp, hm, he, he'⟩ := h.shape.parent hd hroot
      refine ⟨p, pi, pi, ⟨hp, .inl ⟨rfl, .inr ⟨e, m, i, hd, hm, he⟩⟩⟩, ?_, fun _ => rfl⟩
      have hres : g.resolveName d ".." = some pi := h.resolveName_iff.mpr ⟨e', he'⟩
      have hdir : g.dirForInode pi = some p := h.dirForInode_iff.mpr hp
      unfold TypeGraph.resolveComponent
      simp only [if_pos, hres, hdir]
  · cases hres : g.resolveName d n with
    | none =>
        refine .inr (.inr ⟨?_, ?_, .nameNotFound n, ?_⟩)
        · rintro c ci ⟨_, ⟨hn', _⟩ | ⟨_, e, he⟩⟩
          · exact hn hn'
          · exact h.resolveName_eq_none_iff.mp hres e ci he
        · rintro t ⟨_, ⟨e, he⟩, _⟩
          exact h.resolveName_eq_none_iff.mp hres e t he
        · unfold TypeGraph.resolveComponent
          rw [if_neg hn]
          simp only [hres]
    | some t =>
        obtain ⟨e, he⟩ := h.resolveName_iff.mp hres
        obtain ⟨inode, hinode⟩ := h.getInode_of_entry he
        by_cases hkind : inode.vtype = .directory
        · obtain ⟨c, hc⟩ := h.dir_of_entry he hinode hkind
          exact .inl ⟨c, t, t, ⟨hc, .inr ⟨hn, e, he⟩⟩, h.resolveComponent_dir hn hres hc, fun _ => rfl⟩
        · refine .inr (.inl ⟨t, ⟨hn, ⟨e, he⟩, ?_⟩, ?_⟩)
          · intro c hc
            obtain ⟨inode', hinode', hkind'⟩ := h.getInode_of_dir hc
            rw [hinode] at hinode'
            cases hinode'
            exact hkind hkind'
          · unfold TypeGraph.resolveComponent
            rw [if_neg hn]
            simp only [hres, hinode, if_neg hkind]

/-- Resolution answers exactly if the components can be looked up with what is no directory passed over. -/
theorem Inv.resolves_iff_skips (h : Inv g) (cs : List String) : ∀ {d i j}, g.dirInode d = some i →
    ((∃ r, cs.foldlM g.resolveComponent (d, j) = .ok r) ↔ g.Skips d cs) := by
  induction cs with
  | nil =>
      intro d i j _
      exact ⟨fun _ => .here d, fun _ => ⟨_, rfl⟩⟩
  | cons n cs ih =>
      intro d i j hd
      rw [List.foldlM_cons]
      rcases h.resolveComponent_cases hd j n with ⟨c, ci, j', hgoes, hstep, _⟩ | ⟨t, hstops, hstep⟩ |
        ⟨hgoes, hstops, e, hstep⟩
      · rw [hstep]
        refine (ih (j := j') hgoes.1).trans ⟨.goes hgoes, ?_⟩
        intro hskips
        cases hskips with
        | goes hgoes' hrest =>
            obtain ⟨rfl, rfl⟩ := h.goes_unique hgoes hgoes'
            exact hrest
        | stops hstops _ => exact (h.not_goes_stops hgoes hstops).elim
      · rw [hstep]
        refine (ih (j := t) hd).trans ⟨.stops hstops, ?_⟩
        intro hskips
        cases hskips with
        | goes hgoes _ => exact (h.not_goes_stops hgoes hstops).elim
        | stops _ hrest => exact hrest
      · rw [hstep]
        constructor
        · rintro ⟨r, hr⟩
          cases hr
        · intro hskips
          cases hskips with
          | goes hgoes' _ => exact absurd hgoes' (hgoes _ _)
          | stops hstops' _ => exact absurd hstops' (hstops _)

/-- A walk that drifts leads nowhere. -/
theorem Inv.not_walk_of_drifts (h : Inv g) {cs : List String} (hdrifts : g.Drifts d cs) :
    ∀ {i r}, ¬ g.Walk (d, i) cs r := by
  induction hdrifts with
  | goes hgoes _ ih =>
      intro i r hwalk
      cases hwalk with
      | goes hgoes' hrest =>
          obtain ⟨rfl, rfl⟩ := h.goes_unique hgoes hgoes'
          exact ih hrest
      | stops hstops => exact h.not_goes_stops hgoes hstops
  | here hstops _ =>
      intro i r hwalk
      cases hwalk with
      | goes hgoes _ => exact h.not_goes_stops hgoes hstops

/-- The components of a walk that drifts can be looked up. -/
theorem TypeGraph.Drifts.skips {cs : List String} (hdrifts : g.Drifts d cs) : g.Skips d cs := by
  induction hdrifts with
  | goes hgoes _ ih => exact .goes hgoes ih
  | here hstops hskips => exact .stops hstops hskips

/-- Where the walk does not drift, resolution and the walk lead to the same place. -/
theorem Inv.resolves_iff_walk (h : Inv g) (cs : List String) : ∀ {d i}, g.dirInode d = some i →
    ¬ g.Drifts d cs → ∀ r, cs.foldlM g.resolveComponent (d, i) = .ok r ↔ g.Walk (d, i) cs r := by
  induction cs with
  | nil =>
      intro d i _ _ r
      constructor
      · intro hr
        cases hr
        exact .here _
      · intro hwalk
        cases hwalk
        rfl
  | cons n cs ih =>
      intro d i hd hdrifts r
      rw [List.foldlM_cons]
      rcases h.resolveComponent_cases hd i n with ⟨c, ci, j', hgoes, hstep, hinode⟩ | ⟨t, hstops, hstep⟩ |
        ⟨hgoes, hstops, e, hstep⟩
      · rw [hstep, hinode (.inl rfl)]
        refine (ih hgoes.1 (fun hrest => hdrifts (.goes hgoes hrest)) r).trans ⟨.goes hgoes, ?_⟩
        intro hwalk
        cases hwalk with
        | goes hgoes' hrest =>
            obtain ⟨rfl, rfl⟩ := h.goes_unique hgoes hgoes'
            exact hrest
        | stops hstops => exact (h.not_goes_stops hgoes hstops).elim
      · rw [hstep]
        change cs.foldlM g.resolveComponent (d, t) = .ok r ↔ _
        cases cs with
        | nil =>
            constructor
            · intro hr
              cases hr
              exact .stops hstops
            · intro hwalk
              cases hwalk with
              | goes hgoes _ => exact (h.not_goes_stops hgoes hstops).elim
              | stops hstops' =>
                  rw [h.stops_unique hstops hstops']
                  rfl
        | cons m cs =>
            constructor
            · intro hr
              exact absurd (.here hstops ((h.resolves_iff_skips (m :: cs) (j := t) hd).mp ⟨r, hr⟩)) hdrifts
            · intro hwalk
              cases hwalk with
              | goes hgoes _ => exact (h.not_goes_stops hgoes hstops).elim
      · rw [hstep]
        constructor
        · intro hr
          cases hr
        · intro hwalk
          cases hwalk with
          | goes hgoes' _ => exact absurd hgoes' (hgoes _ _)
          | stops hstops' => exact absurd hstops' (hstops _)

end Steps

/-- Path resolution is the walk, unless it drifts: resolve_path leads exactly where the walk of the
    components leads if and only if no component but the last stops at what is no directory with the rest to
    be looked up beside it. -/
theorem resolvePath_walks {g : TypeGraph} (hg : Reachable g) (path : String) :
    (∀ r, g.resolvePath path = .ok r ↔
        g.Walk (g.rootDir, g.rootInode) (TypeGraph.pathComponents path) r) ↔
      ¬ g.Drifts g.rootDir (TypeGraph.pathComponents path) := by
  have h := hg.inv
  have hroot : g.dirInode g.rootDir = some g.rootInode := h.shape.root
  constructor
  · intro hall hdrifts
    obtain ⟨r, hr⟩ := (h.resolves_iff_skips _ (j := g.rootInode) hroot).mpr hdrifts.skips
    exact h.not_walk_of_drifts hdrifts ((hall r).mp hr)
  · intro hdrifts r
    exact h.resolves_iff_walk _ hroot hdrifts r

/-- A file in a directory, with slashes and dots on the way. -/
theorem resolvePath_walks_nested :
    let g := (TypeGraph.new 0).calls (fun _ => 0) [.mkdir 1 "d" 0 0 .dirDefault, .createFile 2 "a" 0 0 .fileDefault]
    (∀ r, g.resolvePath "//d/./../d/a" = .ok r ↔
        g.Walk (g.rootDir, g.rootInode) (TypeGraph.pathComponents "//d/./../d/a") r) ↔
      ¬ g.Drifts g.rootDir (TypeGraph.pathComponents "//d/./../d/a") :=
  resolvePath_walks (Run.calls _ (.new 0) (by decide)) "//d/./../d/a"

/-- A name of the root is no directory and holds nothing under it. -/
theorem Inv.stops_of (h : Inv g) {d : DirId} {n : String} {t : InodeId} (hn : n ≠ "..")
    (ht : g.resolveName d n = some t) (hfile : g.dirForInode t = none) : g.Stops d n t := by
  refine ⟨hn, h.resolveName_iff.mp ht, ?_⟩
  intro c hc
  rw [h.dirForInode_iff.mpr hc] at hfile
  cases hfile

/-- Two files of the root: the one is found below the other. -/
theorem resolvePath_below_file :
    let g := (TypeGraph.new 0).calls (fun _ => 0)
      [.createFile 1 "a" 0 0 .fileDefault, .createFile 1 "b" 0 0 .fileDefault]
    Reachable g ∧ (g.resolvePath "/a/b").toOption = some (1, 3) ∧
      ∀ r, ¬ g.Walk (g.rootDir, g.rootInode) (TypeGraph.pathComponents "/a/b") r := by
  have hg : Reachable ((TypeGraph.new 0).calls (fun _ => 0)
      [.createFile 1 "a" 0 0 .fileDefault, .createFile 1 "b" 0 0 .fileDefault]) :=
    Run.calls _ (.new 0) (by decide)
  have hcomponents : TypeGraph.pathComponents "/a/b" = ["a", "b"] := by decide
  refine ⟨hg, by decide, ?_⟩
  intro r
  rw [hcomponents]
  exact hg.inv.not_walk_of_drifts (.here (hg.inv.stops_of (t := 2) (by decide) (by decide) (by decide))
    (.stops (hg.inv.stops_of (t := 3) (by decide) (by decide) (by decide)) (.here _)))

/-! ### The parent and the last name -/

section Cuts

/-- The last component of a path whose trailing separators are trimmed. -/
def lastComponent (path : String) : String :=
  String.ofList (((trimSlashes path.toList).splitOn '/').getLast?.getD [])

/-- The components of a list of characters. -/
def componentsOf (path : List Char) : List String :=
  ((path.splitOn '/').map String.ofList).filter fun c => c ≠ "" && c ≠ "."

theorem pathComponents_ofList (path : List Char) :
    TypeGraph.pathComponents (String.ofList path) = componentsOf path := by
  rw [TypeGraph.pathComponents, String.toList_ofList, componentsOf]

theorem componentsOf_append (xs ys : List Char) :
    componentsOf (xs ++ '/' :: ys) = componentsOf xs ++ componentsOf ys := by
  rw [componentsOf, List.splitOn_append_cons_self, List.map_append, List.filter_append]
  rfl

/-- A component that is neither empty nor a dot. -/
theorem componentsOf_name {name : List Char} (hsep : '/' ∉ name) (hempty : String.ofList name ≠ "")
    (hdot : String.ofList name ≠ ".") : componentsOf name = [String.ofList name] := by
  rw [componentsOf, List.splitOn_eq_singleton hsep]
  simp [hempty, hdot]

theorem componentsOf_nil : componentsOf [] = [] := by decide

/-- Trailing separators add no component. -/
theorem componentsOf_trim (path : List Char) : componentsOf (trimSlashes path) = componentsOf path := by
  obtain ⟨slashes, hall, hpath⟩ : ∃ slashes : List Char, (∀ c ∈ slashes, c = '/') ∧
      path = trimSlashes path ++ slashes := by
    refine ⟨(path.reverse.takeWhile (· == '/')).reverse, ?_, ?_⟩
    · intro c hc
      have := List.mem_takeWhile_imp (List.mem_reverse.mp hc)
      simpa using this
    · rw [trimSlashes, ← List.reverse_append, List.takeWhile_append_dropWhile, List.reverse_reverse]
  have happend : ∀ slashes : List Char, (∀ c ∈ slashes, c = '/') → ∀ xs,
      componentsOf (xs ++ slashes) = componentsOf xs := by
    intro slashes
    induction slashes with
    | nil =>
        intro _ xs
        rw [List.append_nil]
    | cons c cs ih =>
        intro hall xs
        obtain ⟨rfl, hcs⟩ := List.forall_mem_cons.mp hall
        have hcs' := ih hcs []
        rw [List.nil_append] at hcs'
        rw [componentsOf_append, hcs', componentsOf_nil, List.append_nil]
  conv_rhs => rw [hpath]
  rw [happend slashes hall]

/-- Cutting a path at its last separator: the components are those of the parent and the last name, which is
    what the split at every separator ends with. -/
theorem cutPath_spec (path : List Char) :
    '/' ∉ (cutPath path).2 ∧ (path.splitOn '/').getLast?.getD [] = (cutPath path).2 ∧
      componentsOf path = componentsOf (cutPath path).1 ++ componentsOf (cutPath path).2 := by
  have hslash : componentsOf ['/'] = [] := by decide
  have hname : '/' ∉ path.reverse.takeWhile (· != '/') := by
    intro hmem
    have hne := List.mem_takeWhile_imp hmem
    simp at hne
  have hsplit : path.reverse.takeWhile (· != '/') ++ path.reverse.dropWhile (· != '/') = path.reverse :=
    List.takeWhile_append_dropWhile
  unfold cutPath
  rw [List.span_eq_takeWhile_dropWhile]
  cases hrest : path.reverse.dropWhile (· != '/') with
  | nil =>
      rw [hrest, List.append_nil] at hsplit
      have hsep : '/' ∉ path := by
        rw [hsplit] at hname
        exact fun hmem => hname (List.mem_reverse.mpr hmem)
      refine ⟨hsep, ?_, ?_⟩
      · rw [List.splitOn_eq_singleton hsep]
        rfl
      · rw [hslash, List.nil_append]
  | cons c parent =>
      have hc : c = '/' := by
        have hhead := List.head?_dropWhile_not (· != '/') path.reverse
        rw [hrest] at hhead
        simpa using hhead
      subst hc
      have hpath : path = parent.reverse ++ '/' :: (path.reverse.takeWhile (· != '/')).reverse := by
        rw [hrest] at hsplit
        have hback := congrArg List.reverse hsplit
        rw [List.reverse_append, List.reverse_cons, List.reverse_reverse, List.append_assoc,
          List.singleton_append] at hback
        exact hback.symm
      have hsep : '/' ∉ (path.reverse.takeWhile (· != '/')).reverse :=
        fun hmem => hname (List.mem_reverse.mp hmem)
      refine ⟨hsep, ?_, ?_⟩
      · conv_lhs => rw [hpath]
        rw [List.splitOn_append_cons_self, List.splitOn_eq_singleton hsep, List.getLast?_append]
        rfl
      · conv_lhs => rw [hpath]
        rw [componentsOf_append]
        congr 1
        dsimp only
        split
        · rename_i hnil
          rw [hnil, hslash]
          rfl
        · rfl

end Cuts

section Parents

variable {g : TypeGraph}

/-- Where the parts of a cut path lead. -/
theorem resolvePath_cut {path : String} (hempty : lastComponent path ≠ "") (hname : UserName (lastComponent path)) :
    ∃ parent : List String, g.resolvePath path = (do
        let place ← parent.foldlM g.resolveComponent (g.rootDir, g.rootInode)
        g.resolveComponent place (lastComponent path)) ∧
      g.resolveParent path = (do
        let place ← parent.foldlM g.resolveComponent (g.rootDir, g.rootInode)
        pure (place.1, lastComponent path)) := by
  obtain ⟨hsep, hlast, hcut⟩ := cutPath_spec (trimSlashes path.toList)
  have hlast' : lastComponent path = String.ofList (cutPath (trimSlashes path.toList)).2 := by
    rw [lastComponent, hlast]
  rw [hlast'] at hempty hname ⊢
  refine ⟨componentsOf (cutPath (trimSlashes path.toList)).1, ?_, ?_⟩
  · rw [componentsOf_trim, componentsOf_name hsep hempty hname.1] at hcut
    have hcomponents : TypeGraph.pathComponents path = componentsOf path.toList := rfl
    rw [TypeGraph.resolvePath, hcomponents, hcut, List.foldlM_append]
    refine bind_congr fun place => ?_
    rw [List.foldlM_cons]
    cases g.resolveComponent place (String.ofList (cutPath (trimSlashes path.toList)).2) with
    | error e => rfl
    | ok place' => rfl
  · unfold TypeGraph.resolveParent
    dsimp only
    rw [TypeGraph.resolvePath, pathComponents_ofList]
    cases List.foldlM g.resolveComponent (g.rootDir, g.rootInode)
        (componentsOf (cutPath (trimSlashes path.toList)).1) with
    | error e => rfl
    | ok place => rfl

/-- Resolution stays in live directories. -/
theorem Inv.resolves_live (h : Inv g) (cs : List String) : ∀ {d i j r}, g.dirInode d = some i →
    cs.foldlM g.resolveComponent (d, j) = .ok r → ∃ ri, g.dirInode r.1 = some ri := by
  induction cs with
  | nil =>
      intro d i j r hd hr
      cases hr
      exact ⟨i, hd⟩
  | cons n cs ih =>
      intro d i j r hd hr
      rw [List.foldlM_cons] at hr
      rcases h.resolveComponent_cases hd j n with ⟨c, ci, j', hgoes, hstep, _⟩ | ⟨t, hstops, hstep⟩ |
        ⟨_, _, e, hstep⟩
      · rw [hstep] at hr
        exact ih hgoes.1 hr
      · rw [hstep] at hr
        exact ih hd hr
      · rw [hstep] at hr
        cases hr

/-- A name other than ".." is looked up in the directory, whatever inode resolution came with. -/
theorem Inv.resolveComponent_name (h : Inv g) {d : DirId} {i j : InodeId} {n : String}
    (hd : g.dirInode d = some i) (hn : n ≠ "..") :
    (∀ t, (∃ c, g.resolveComponent (d, j) n = .ok (c, t)) ↔ g.resolveName d n = some t) ∧
      ∀ c t, g.resolveComponent (d, j) n = .ok (c, t) → ∀ inode, g.getInode t = some inode →
        (inode.vtype = .directory → g.dirForInode t = some c) ∧ (inode.vtype ≠ .directory → c = d) := by
  rcases h.resolveComponent_cases hd j n with ⟨c, ci, j', hgoes, hstep, hinode⟩ | ⟨t, hstops, hstep⟩ |
    ⟨hgoes, hstops, e, hstep⟩
  · rw [hinode (.inr hn)] at hstep
    obtain ⟨hc, ⟨hup, _⟩ | ⟨_, he⟩⟩ := hgoes
    · exact absurd hup hn
    have hres : g.resolveName d n = some ci := h.resolveName_iff.mpr he
    refine ⟨fun t => ?_, fun c' t hstep' inode hi => ?_⟩
    · rw [hstep, hres]
      constructor
      · rintro ⟨c', hc'⟩
        cases hc'
        rfl
      · intro ht
        cases ht
        exact ⟨c, rfl⟩
    · rw [hstep] at hstep'
      cases hstep'
      obtain ⟨inode', hi', hkind⟩ := h.getInode_of_dir hc
      rw [hi] at hi'
      cases hi'
      exact ⟨fun _ => h.dirForInode_iff.mpr hc, fun hne => absurd hkind hne⟩
  · have hres : g.resolveName d n = some t := h.resolveName_iff.mpr hstops.2.1
    refine ⟨fun t' => ?_, fun c' t' hstep' inode hi => ?_⟩
    · rw [hstep, hres]
      constructor
      · rintro ⟨c', hc'⟩
        cases hc'
        rfl
      · intro ht
        cases ht
        exact ⟨d, rfl⟩
    · rw [hstep] at hstep'
      cases hstep'
      refine ⟨fun hkind => ?_, fun _ => rfl⟩
      obtain ⟨_, ⟨e, he⟩, hfile⟩ := hstops
      obtain ⟨c, hc⟩ := h.dir_of_entry he hi hkind
      exact absurd hc (hfile c)
  · refine ⟨fun t => ?_, fun c' t hstep' => ?_⟩
    · rw [hstep]
      constructor
      · rintro ⟨c', hc'⟩
        cases hc'
      · intro ht
        obtain ⟨e', he'⟩ := h.resolveName_iff.mp ht
        obtain ⟨inode, hi⟩ := h.getInode_of_entry he'
        by_cases hkind : inode.vtype = .directory
        · obtain ⟨c, hc⟩ := h.dir_of_entry he' hi hkind
          exact absurd ⟨hc, .inr ⟨hn, e', he'⟩⟩ (hgoes c t)
        · refine absurd ⟨hn, ⟨e', he'⟩, fun c hc => ?_⟩ (hstops t)
          obtain ⟨inode', hi', hkind'⟩ := h.getInode_of_dir hc
          rw [hi] at hi'
          cases hi'
          exact hkind hkind'
    · rw [hstep] at hstep'
      cases hstep'

end Parents

/-- The two path resolutions agree: for a path whose last component is a proper name, resolve_path leads
    to an inode exactly if resolve_parent leads to a directory in which the name does; the directory it
    returns is then the inode's own, or that one if the inode is no directory. -/
theorem resolvePath_parent {g : TypeGraph} (hg : Reachable g) {path : String} (hempty : lastComponent path ≠ "")
    (hname : UserName (lastComponent path)) :
    (∀ i, (∃ c, g.resolvePath path = .ok (c, i)) ↔
        ∃ d n, g.resolveParent path = .ok (d, n) ∧ g.resolveName d n = some i) ∧
      ∀ c i d n, g.resolvePath path = .ok (c, i) → g.resolveParent path = .ok (d, n) →
        ∃ inode, g.getInode i = some inode ∧
          (inode.vtype ≠ .directory → c = d) ∧ (inode.vtype = .directory → g.dirForInode i = some c) := by
  have h := hg.inv
  have hroot : g.dirInode g.rootDir = some g.rootInode := h.shape.root
  obtain ⟨parent, hpath, hparent⟩ := resolvePath_cut (g := g) hempty hname
  rw [hpath, hparent]
  cases hplace : parent.foldlM g.resolveComponent (g.rootDir, g.rootInode) with
  | error e =>
      refine ⟨fun i => ⟨?_, ?_⟩, ?_⟩
      · rintro ⟨c, hc⟩
        cases hc
      · rintro ⟨d, n, hd, _⟩
        cases hd
      · intro c i d n hc
        cases hc
  | ok place =>
      obtain ⟨d, j⟩ := place
      obtain ⟨di, hd⟩ := h.resolves_live parent hroot hplace
      obtain ⟨hleads, hdirs⟩ := h.resolveComponent_name (j := j) hd hname.2
      refine ⟨fun i => (hleads i).trans ⟨fun hi => ⟨d, _, rfl, hi⟩, ?_⟩, ?_⟩
      · rintro ⟨d', n, hd', hi⟩
        cases hd'
        exact hi
      · intro c i d' n hc hd'
        cases hd'
        obtain ⟨e, he⟩ := h.resolveName_iff.mp ((hleads i).mp ⟨c, hc⟩)
        obtain ⟨inode, hi⟩ := h.getInode_of_entry he
        obtain ⟨hkind, hfile⟩ := hdirs c i hc inode hi
        exact ⟨inode, hi, hfile, hkind⟩

/-- A file below a directory, its path ending in separators. -/
theorem resolvePath_parent_nested :
    let g := (TypeGraph.new 0).calls (fun _ => 0) [.mkdir 1 "d" 0 0 .dirDefault, .createFile 2 "a" 0 0 .fileDefault]
    (∀ i, (∃ c, g.resolvePath "d//a//" = .ok (c, i)) ↔
        ∃ d n, g.resolveParent "d//a//" = .ok (d, n) ∧ g.resolveName d n = some i) ∧
      ∀ c i d n, g.resolvePath "d//a//" = .ok (c, i) → g.resolveParent "d//a//" = .ok (d, n) →
        ∃ inode, g.getInode i = some inode ∧
          (inode.vtype ≠ .directory → c = d) ∧ (inode.vtype = .directory → g.dirForInode i = some c) :=
  resolvePath_parent (Run.calls _ (.new 0) (by decide)) (by decide) (by decide)

end SotFs
