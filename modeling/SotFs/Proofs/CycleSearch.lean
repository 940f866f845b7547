/-
Module: SotFs.Proofs.CycleSearch
Layer: Proofs
Purpose: The recursive searches of the directory graph on every graph, cyclic or not, whatever its indexes
  say. Each ends within a depth of one more than the directories with an entry set, and answers about the
  steps that it follows: `is_ancestor` whether one directory is reached from another, the two cycle checkers
  whether a cycle is reached from some directory, although the one forgets its path on the way and the other
  keeps marks and a path that a found cycle leaves dirty.
Trusted boundary: none
Main exports: TypeGraph.Enters, isAncestor_decides, rename_cycle_iff, cycleCheckers_agree
-/
import SotFs.Core.Descents
import SotFs.Proofs.Preservation

namespace SotFs

open Std (ExtTreeMap ExtTreeSet)
open Relation Foundation

/-- A recorded entry of `d` other than "." and ".." leads to a live directory inode whose directory is `c`. -/
def TypeGraph.Enters (g : TypeGraph) (d c : DirId) : Prop :=
  ∃ eid id src tgt name, eid ∈ SetIndex.members g.dirContains d ∧
    g.getEdge eid = some (.contains id src tgt name) ∧ UserName name ∧
      (∃ i, g.getInode tgt = some i ∧ i.vtype = .directory) ∧ g.dirForInode tgt = some c

section Steps

variable {g : TypeGraph}

theorem TypeGraph.mem_childDirs {d c : DirId} : c ∈ g.childDirs d ↔ g.Enters d c := by
  unfold TypeGraph.childDirs TypeGraph.dirEntries
  rw [List.mem_filterMap]
  constructor
  · rintro ⟨⟨eid, tgt, name⟩, hmem, hsome⟩
    obtain ⟨eid', heid, hentry⟩ := List.mem_filterMap.mp hmem
    rw [ExtTreeSet.mem_toList] at heid
    split at hentry
    · rename_i id src tgt' name' hedge
      cases hentry
      split at hsome
      · cases hsome
      · rename_i hname
        split at hsome
        · rename_i inode hinode
          split at hsome
          · rename_i hkind
            exact ⟨eid, id, src, tgt, name, heid, hedge, not_or.mp hname, ⟨inode, hinode, hkind⟩, hsome⟩
          · cases hsome
        · cases hsome
    · cases hentry
  · rintro ⟨eid, id, src, tgt, name, heid, hedge, hname, ⟨inode, hinode, hkind⟩, hdir⟩
    refine ⟨(eid, tgt, name), List.mem_filterMap.mpr ⟨eid, ExtTreeSet.mem_toList.mpr heid, by rw [hedge]⟩, ?_⟩
    rw [if_neg (not_or.mpr hname)]
    simp only [hinode, if_pos hkind, hdir]

theorem TypeGraph.childDirs_rel : (fun a b => b ∈ g.childDirs a) = g.Enters := by
  funext d c
  exact propext TypeGraph.mem_childDirs

/-- Under the invariant the steps are those of the tree. -/
theorem Inv.enters_eq (h : Inv g) : g.Enters = g.shape.Child := by
  rw [← TypeGraph.childDirs_rel]
  funext d c
  exact propext h.mem_childDirs

theorem card_keys_lt {depth : Nat} (hdepth : g.dirContains.size < depth) :
    g.dirContains.keys.toFinset.card < depth := by
  have hle := g.dirContains.keys.toFinset_card_le
  rw [ExtTreeMap.length_keys] at hle
  omega

end Steps

/-! ### The unbounded searches answer as the bounded ones do -/

section Bounded

/-- Children that are visited alike. -/
theorem anyChild_eq {α V : Type} {visit : α → V → Option (Bool × V)} {visit' : α → V → Bool × V}
    (hvisit : ∀ c v r, visit c v = some r → visit' c v = r) (cs : List α) :
    ∀ {v r}, firstChild visit cs v = some r → GraphSearch.anyChild visit' cs v = r := by
  induction cs with
  | nil =>
      intro v r hrun
      cases hrun
      rfl
  | cons c cs ih =>
      intro v r hrun
      rw [firstChild] at hrun
      rw [GraphSearch.anyChild]
      cases hc : visit c v with
      | none =>
          rw [hc] at hrun
          cases hrun
      | some answer =>
          rw [hc] at hrun
          rw [hvisit c v answer hc]
          obtain ⟨b, v'⟩ := answer
          cases b with
          | true =>
              cases hrun
              rfl
          | false => exact ih hrun

/-- A search that found nothing leaves the marks it made. -/
theorem search_eq {α : Type} [DecidableEq α] {succ : α → List α} {target : α} : ∀ (depth : Nat) (c : α)
    (v : Finset α) (r : Bool × Finset α), (Descent.targetSearch succ target).run depth c v = some r →
      (if c = target then (true, v) else GraphSearch.search succ target depth c v) = r := by
  intro depth
  induction depth with
  | zero =>
      intro c v r hrun
      cases hrun
  | succ depth ih =>
      intro c v r hrun
      rw [Descent.run] at hrun
      by_cases hc : c = target
      · rw [if_pos hc]
        simp only [Descent.targetSearch, if_pos hc] at hrun
        exact Option.some.inj hrun
      · rw [if_neg hc, GraphSearch.search]
        by_cases hv : c ∈ v
        · rw [if_pos hv]
          simp only [Descent.targetSearch, if_neg hc, if_pos hv] at hrun
          exact Option.some.inj hrun
        · rw [if_neg hv]
          simp only [Descent.targetSearch, if_neg hc, if_neg hv] at hrun
          split at hrun
          · cases hrun
          · rename_i w hw
            cases hrun
            exact anyChild_eq ih _ hw
          · rename_i w hw
            cases hrun
            exact anyChild_eq ih _ hw

variable {g : TypeGraph}

theorem hasCycleFrom_eq : ∀ (depth : Nat) (start : DirId) (path : Finset DirId)
    (r : Bool × Finset DirId), g.hasCycleFromWithin depth start path = some r →
      g.hasCycleFrom depth start path = r := by
  intro depth
  induction depth with
  | zero =>
      intro start path r hrun
      cases hrun
  | succ depth ih =>
      intro start path r hrun
      rw [TypeGraph.hasCycleFromWithin, Descent.run] at hrun
      rw [TypeGraph.hasCycleFrom]
      by_cases hmem : start ∈ path
      · rw [if_pos hmem]
        simp only [Descent.pathSearch, if_pos hmem] at hrun
        exact Option.some.inj hrun
      · rw [if_neg hmem]
        simp only [Descent.pathSearch, if_neg hmem] at hrun
        split at hrun
        · cases hrun
        · rename_i w hw
          cases hrun
          rw [anyChild_eq ih _ hw]
        · rename_i w hw
          cases hrun
          rw [anyChild_eq ih _ hw]

/-- What the search does with a child. -/
theorem hasCycleDfs_visit_eq : ∀ (depth : Nat) (dir : DirId) (met : Finset DirId × Finset DirId)
    (r : Bool × (Finset DirId × Finset DirId)),
    (Descent.markSearch g.childDirs).run depth dir met = some r →
      (if dir ∈ met.2 then (true, met) else if dir ∈ met.1 then (false, met) else g.hasCycleDfs depth dir met) =
        r := by
  intro depth
  induction depth with
  | zero =>
      intro dir met r hrun
      cases hrun
  | succ depth ih =>
      intro dir met r hrun
      rw [Descent.run] at hrun
      by_cases hstack : dir ∈ met.2
      · rw [if_pos hstack]
        simp only [Descent.markSearch, if_pos hstack] at hrun
        exact Option.some.inj hrun
      · rw [if_neg hstack]
        by_cases hmet : dir ∈ met.1
        · rw [if_pos hmet]
          simp only [Descent.markSearch, if_neg hstack, if_pos hmet] at hrun
          exact Option.some.inj hrun
        · rw [if_neg hmet, TypeGraph.hasCycleDfs]
          simp only [Descent.markSearch, if_neg hstack, if_neg hmet] at hrun
          split at hrun
          · cases hrun
          · rename_i w hw
            cases hrun
            rw [anyChild_eq ih _ hw]
          · rename_i w hw
            cases hrun
            rw [anyChild_eq ih _ hw]

theorem hasCycleDfs_eq {depth : Nat} {dir : DirId} {met : Finset DirId × Finset DirId}
    {r : Bool × (Finset DirId × Finset DirId)} (hrun : g.hasCycleDfsWithin depth dir met = some r) :
    g.hasCycleDfs depth dir met = r := by
  cases depth with
  | zero => cases hrun
  | succ depth =>
      rw [TypeGraph.hasCycleDfsWithin] at hrun
      rw [TypeGraph.hasCycleDfs]
      split at hrun
      · cases hrun
      · rename_i w hw
        cases hrun
        rw [anyChild_eq (hasCycleDfs_visit_eq depth) _ hw]
      · rename_i w hw
        cases hrun
        rw [anyChild_eq (hasCycleDfs_visit_eq depth) _ hw]

end Bounded

/-! ### Ancestors -/

section Ancestors

variable {g : TypeGraph}

/-- On every graph the search decides whether one directory is the other or is reached from it. -/
theorem isAncestor_iff_enters {a d : DirId} : g.isAncestor a d = true ↔ ReflTransGen g.Enters a d := by
  have hsearch := GraphSearch.search_iff_transGen d (fun _ => mem_keys_of_childDirs)
    (card_keys_lt (Nat.lt_succ_self g.dirContains.size)) a
  rw [TypeGraph.childDirs_rel] at hsearch
  rw [TypeGraph.isAncestor, Bool.or_eq_true, TypeGraph.isDescendantOf, hsearch, beq_iff_eq,
    Relation.reflTransGen_iff_eq_or_transGen]
  exact or_congr eq_comm Iff.rfl

/-- The search ends within a depth of one more than the directories with an entry set. -/
theorem isAncestorWithin_eq {depth : Nat} (hdepth : g.dirContains.size < depth) (a d : DirId) :
    g.isAncestorWithin depth a d = some (g.isAncestor a d) := by
  obtain ⟨r, hrun⟩ := Descent.targetSearch_isSome d a ∅
    (fun x => mem_keys_of_childDirs (g := g) (d := x)) (card_keys_lt hdepth)
  have hsearch := GraphSearch.search_iff_transGen d (fun _ => mem_keys_of_childDirs)
    (card_keys_lt hdepth) a
  rw [TypeGraph.childDirs_rel] at hsearch
  rw [TypeGraph.isAncestorWithin, hrun, Option.map_some, Option.some.injEq, Bool.eq_iff_iff,
    isAncestor_iff_enters, Relation.reflTransGen_iff_eq_or_transGen, ← search_eq depth a ∅ r hrun]
  by_cases had : a = d
  · rw [if_pos had]
    exact ⟨fun _ => .inl had.symm, fun _ => rfl⟩
  · rw [if_neg had, hsearch]
    exact ⟨.inr, fun h => h.resolve_left fun hda => had hda.symm⟩

/-! The other errors of a rename are not mistaken for the cycle error. -/

theorem requireCap_ne_cycle {needed : UInt8} : g.requireCap needed ≠ .error .wouldCreateCycle := by
  unfold TypeGraph.requireCap
  split
  · rintro ⟨⟩
  · split
    · rintro ⟨⟩
    · split
      · rintro ⟨⟩
      · rintro ⟨⟩

theorem settle_ne_cycle {α : Type} {d : DirId} {deltaInodes : Int} {now : Timestamp} {op : ProvOp}
    {i : InodeId} {detail : String} {a : α} {g' : TypeGraph} :
    g.settle d deltaInodes now op i detail a ≠ (.err .wouldCreateCycle, g') := by
  unfold TypeGraph.settle
  split
  · rintro ⟨⟩
  · rintro ⟨⟩

theorem rmdir_ne_cycle {now : Nat → Timestamp} {d : DirId} {n : String} {g' : TypeGraph} :
    rmdir now d n g ≠ (.err .wouldCreateCycle, g') := by
  unfold rmdir
  split
  · rename_i e he
    intro h
    cases h
    exact requireCap_ne_cycle he
  · split
    · rintro ⟨⟩
    · split
      · rintro ⟨⟩
      · split
        · rintro ⟨⟩
        · split
          · rintro ⟨⟩
          · split
            · rintro ⟨⟩
            · split
              · rintro ⟨⟩
              · exact settle_ne_cycle

theorem unlink_ne_cycle {now : Nat → Timestamp} {d : DirId} {n : String} {g' : TypeGraph} :
    unlink now d n g ≠ (.err .wouldCreateCycle, g') := by
  unfold unlink
  split
  · rename_i e he
    intro h
    cases h
    exact requireCap_ne_cycle he
  · split
    · rintro ⟨⟩
    · split
      · rintro ⟨⟩
      · split
        · rintro ⟨⟩
        · rename_i e t m _
          split
          · rintro ⟨⟩
          · rename_i inode _
            split
            · rintro ⟨⟩
            · by_cases hlast : decrement32 inode.linkCount = 0
              · rw [if_pos hlast]
                exact settle_ne_cycle (g := g.dropLastName e d t)
              · rw [if_neg hlast]
                rintro ⟨⟩

theorem removeDestination_ne_cycle {now : Nat → Timestamp} {d : DirId} {n : String}
    {dst : Option InodeId} {g' : TypeGraph} :
    g.removeDestination now d n dst ≠ (.err .wouldCreateCycle, g') := by
  unfold TypeGraph.removeDestination
  split
  · rintro ⟨⟩
  · split
    · rintro ⟨⟩
    · split
      · exact rmdir_ne_cycle
      · exact unlink_ne_cycle

/-- A move across directories fails with the cycle error exactly when the check says so. -/
theorem renameCrossDir_cycle_iff (now : Nat → Timestamp) {sd : DirId} {sn : String} (dd : DirId) (dn : String)
    {t : InodeId} (ht : g.resolveName sd sn = some t) :
    (renameCrossDir now sd sn dd dn g).1 = .err .wouldCreateCycle ↔ g.wouldCycle t dd = true := by
  unfold renameCrossDir
  rw [ht]
  dsimp only
  by_cases hcycle : g.wouldCycle t dd = true
  · rw [if_pos hcycle]
    exact ⟨fun _ => hcycle, fun _ => rfl⟩
  · rw [if_neg hcycle]
    refine ⟨fun h => absurd h ?_, fun h => absurd h hcycle⟩
    split
    · split
      · rintro ⟨⟩
      · split
        · rintro ⟨⟩
        · rintro ⟨⟩
    · intro h
      exact removeDestination_ne_cycle (Prod.ext h rfl)

/-- What the check of a rename says. -/
theorem TypeGraph.wouldCycle_iff {t : InodeId} {q : DirId} :
    g.wouldCycle t q = true ↔ (∃ i, g.getInode t = some i ∧ i.vtype = .directory) ∧
      ∃ c, g.dirForInode t = some c ∧ ReflTransGen g.Enters c q := by
  unfold TypeGraph.wouldCycle
  cases hi : g.getInode t with
  | none => simp
  | some i =>
      cases hc : g.dirForInode t with
      | none => simp
      | some c =>
          dsimp only
          by_cases hkind : i.vtype = .directory
          · rw [if_pos hkind, isAncestor_iff_enters]
            constructor
            · intro hreach
              exact ⟨⟨i, rfl, hkind⟩, c, rfl, hreach⟩
            · rintro ⟨_, _, hc', hreach⟩
              cases hc'
              exact hreach
          · rw [if_neg hkind]
            constructor
            · intro hfalse
              cases hfalse
            · rintro ⟨⟨i', hi', hkind'⟩, _⟩
              cases hi'
              exact absurd hkind' hkind

end Ancestors

/-- The cycle check decides: on every graph the search ends and answers whether a directory is reached; a
    move across directories whose names are no dots is refused for a cycle exactly if the moved inode is a
    directory and the new parent is that directory or one below it. -/
theorem isAncestor_decides (g : TypeGraph) (a d : DirId) :
    (∀ depth, g.dirContains.size < depth → g.isAncestorWithin depth a d = some (g.isAncestor a d)) ∧
      (g.isAncestor a d = true ↔ ReflTransGen g.Enters a d) ∧
      (Reachable g → ∀ (now : Nat → Timestamp) sd sn dd dn t, sd ≠ dd →
        g.requireCap Rights.write = .ok () → UserName sn → UserName dn → g.resolveName sd sn = some t →
          ((rename now sd sn dd dn g).1 = .err .wouldCreateCycle ↔
            (∃ i, g.getInode t = some i ∧ i.vtype = .directory) ∧
              ∃ c, g.dirForInode t = some c ∧ ReflTransGen g.Enters c dd)) := by
  refine ⟨fun depth hdepth => isAncestorWithin_eq hdepth a d, isAncestor_iff_enters, ?_⟩
  intro hg now sd sn dd dn t hne hcap hsn hdn ht
  rw [← TypeGraph.wouldCycle_iff, ← renameCrossDir_cycle_iff now dd dn ht]
  have hnames : ¬ (sn = "." ∨ sn = ".." ∨ dn = "." ∨ dn = "..") := by
    rintro (h | h | h | h)
    · exact hsn.1 h
    · exact hsn.2 h
    · exact hdn.1 h
    · exact hdn.2 h
  unfold rename
  rw [hcap]
  dsimp only
  rw [if_neg hnames, if_neg hne]
  split
  · rename_i heq
    rw [heq]
  · rfl

/-- A directory is not moved below its own child. -/
theorem isAncestor_decides_child :
    let g := (TypeGraph.new 0).calls (fun _ => 0) [.mkdir 1 "d" 0 0 .dirDefault, .mkdir 2 "e" 0 0 .dirDefault]
    (rename (fun _ => 0) 1 "d" 3 "x" g).1 = .err .wouldCreateCycle ↔
      (∃ i, g.getInode 2 = some i ∧ i.vtype = .directory) ∧
        ∃ c, g.dirForInode 2 = some c ∧ ReflTransGen g.Enters c 3 :=
  (isAncestor_decides _ 1 1).2.2 (Run.calls _ (.new 0) (by decide)) (fun _ => 0) 1 "d" 3 "x" 2
    (by decide) (by decide) (by decide) (by decide) (by decide)

/-- The root's "." leads to the root, above the new parent; the name is refused before the check. -/
theorem rename_dot_refused :
    let g := (TypeGraph.new 0).calls (fun _ => 0) [.mkdir 1 "d" 0 0 .dirDefault]
    Reachable g ∧ g.requireCap Rights.write = .ok () ∧ g.resolveName 1 "." = some 1 ∧
      (g.getInode 1).map Inode.vtype = some .directory ∧ g.dirForInode 1 = some 1 ∧
        ReflTransGen g.Enters 1 2 ∧
          (rename (fun _ => 0) 1 "." 2 "x" g).1 = .err (.nameNotFound ".") :=
  ⟨Run.calls _ (.new 0) (by decide), by decide, by decide, by decide, by decide,
    isAncestor_iff_enters.mp (by decide), by decide⟩

/-! ### The two cycle checkers -/

section Checkers

variable {g : TypeGraph}

/-- What a chain of directory checks reports: the first directory from which a cycle is reached. -/
theorem checkNoDirCyclesWithin_spec {depth : Nat} (hdepth : g.dirContains.size < depth) (dirs : List DirId) :
    ∃ r, g.checkNoDirCyclesWithin depth dirs = some r ∧
      (r = .ok () ↔ ∀ d ∈ dirs, ¬ Descent.CycleBelow g.childDirs d) := by
  induction dirs with
  | nil => exact ⟨.ok (), rfl, fun _ d hd => absurd hd List.not_mem_nil, fun _ => rfl⟩
  | cons d dirs ih =>
      obtain ⟨r, hrest, hiff⟩ := ih
      obtain ⟨⟨b, path⟩, hrun⟩ := Descent.pathSearch_isSome d ∅
        (fun x => mem_keys_of_childDirs (g := g) (d := x)) (card_keys_lt hdepth)
      have hspec := Descent.pathSearch_spec (fun p hp => absurd hp (Finset.notMem_empty p)) hrun
      rw [TypeGraph.checkNoDirCyclesWithin, TypeGraph.hasCycleFromWithin, hrun]
      cases b with
      | true =>
          refine ⟨_, rfl, ?_, fun hall => absurd hspec (hall d List.mem_cons_self)⟩
          rintro ⟨⟩
      | false =>
          refine ⟨r, hrest, ?_⟩
          rw [hiff, List.forall_mem_cons]
          refine ⟨fun hall => ⟨?_, hall⟩, fun hall => hall.2⟩
          rintro ⟨x, hx, hcycle⟩
          exact (hspec.2 x hx).2 hcycle

/-- The chain over any directories is the loop of the verifier over them. -/
theorem checkNoDirCyclesWithin_eq {depth : Nat} (hdepth : g.dirContains.size + 1 < depth)
    (dirs : List (Nat × Directory)) : g.checkNoDirCyclesWithin depth (dirs.map Prod.fst) =
      some (forEach dirs fun (dirId, _) =>
        if (g.hasCycleFrom (g.dirContains.size + 2) dirId ∅).1 then .error (.directoryCycle dirId)
        else .ok ()) := by
  induction dirs with
  | nil => rfl
  | cons entry dirs ih =>
      obtain ⟨d, dir⟩ := entry
      have hfuel : g.dirContains.size < g.dirContains.size + 2 := by omega
      obtain ⟨⟨b, path⟩, hrun⟩ := Descent.pathSearch_isSome d ∅
        (fun x => mem_keys_of_childDirs (g := g) (d := x)) (card_keys_lt hfuel)
      have hdeep : g.hasCycleFromWithin depth d ∅ = some (b, path) :=
        Descent.run_mono (by omega) d ∅ _ hrun
      have hcore := hasCycleFrom_eq _ d ∅ _ hrun
      rw [List.map_cons, TypeGraph.checkNoDirCyclesWithin, hdeep, forEach, List.forM_eq_forM, List.forM_cons]
      dsimp only
      rw [hcore]
      cases b with
      | true => rfl
      | false => exact ih

/-- The check of the verifier is that chain. -/
theorem checkNoDirCycles_eq {depth : Nat} (hdepth : g.dirContains.size + 1 < depth) :
    g.checkNoDirCyclesWithin depth (g.dirs.iter.map Prod.fst) = some g.checkNoDirCycles :=
  checkNoDirCyclesWithin_eq hdepth g.dirs.iter

/-- The search of one directory that was not met yet. -/
theorem hasCycleDfsWithin_isSome {depth : Nat} (hdepth : g.dirContains.size + 1 < depth) (dir : DirId)
    (met : Finset DirId × Finset DirId) : ∃ r, g.hasCycleDfsWithin depth dir met = some r := by
  obtain ⟨depth, rfl⟩ : ∃ n, depth = n + 1 := ⟨depth - 1, by omega⟩
  have hfuel : g.dirContains.size < depth := by omega
  obtain ⟨b, met', hchildren, _⟩ := Descent.firstChild_isSome
    ((Descent.markSearch g.childDirs).run depth) (fun _ => True) (g.childDirs dir)
    (fun c _ u _ => by
      obtain ⟨⟨b, u'⟩, hrun⟩ := Descent.markSearch_isSome c u
        (fun x => mem_keys_of_childDirs (g := g) (d := x)) (card_keys_lt hfuel)
      exact ⟨b, u', hrun, fun _ => trivial⟩)
    (insert dir met.1, insert dir met.2) trivial
  rw [TypeGraph.hasCycleDfsWithin, hchildren]
  cases b with
  | true => exact ⟨_, rfl⟩
  | false => exact ⟨_, rfl⟩

/-- A directory that was not met is searched as a child would be. -/
theorem hasCycleDfsWithin_fresh {depth : Nat} {dir : DirId} {met : Finset DirId × Finset DirId}
    (hmet : dir ∉ met.1) (hstack : dir ∉ met.2) :
    (Descent.markSearch g.childDirs).run depth dir met = g.hasCycleDfsWithin depth dir met := by
  cases depth with
  | zero => rfl
  | succ depth =>
      rw [Descent.run, TypeGraph.hasCycleDfsWithin]
      simp only [Descent.markSearch, if_neg hmet, if_neg hstack]
      generalize firstChild _ _ _ = answer
      rcases answer with _ | ⟨_ | _, met'⟩
      · rfl
      · rfl
      · rfl

/-- A deeper bound changes nothing. -/
theorem hasCycleDfsWithin_mono {depth depth' : Nat} (hle : depth ≤ depth') {dir : DirId}
    {met : Finset DirId × Finset DirId} {r : Bool × (Finset DirId × Finset DirId)}
    (hrun : g.hasCycleDfsWithin depth dir met = some r) : g.hasCycleDfsWithin depth' dir met = some r := by
  cases depth with
  | zero => cases hrun
  | succ depth =>
      obtain ⟨depth', rfl⟩ : ∃ n, depth' = n + 1 := ⟨depth' - 1, by omega⟩
      rw [TypeGraph.hasCycleDfsWithin] at hrun ⊢
      split at hrun
      · cases hrun
      · rename_i w hw
        rw [Descent.firstChild_mono (Descent.run_mono (by omega)) _ hw]
        exact hrun
      · rename_i w hw
        rw [Descent.firstChild_mono (Descent.run_mono (by omega)) _ hw]
        exact hrun

/-- The loop returns, keeps the errors it has, and adds only errors about cycles. -/
theorem fsckCyclesWithin_isSome {depth : Nat} (hdepth : g.dirContains.size + 1 < depth) (dirs : List DirId) :
    ∀ acc, ∃ r, g.fsckCyclesWithin depth dirs acc = some r ∧ ∃ more : List DirId, r.1 = acc.1 ++ more.map .dirCycle := by
  induction dirs with
  | nil =>
      intro acc
      exact ⟨acc, rfl, [], (List.append_nil _).symm⟩
  | cons d dirs ih =>
      intro acc
      rw [TypeGraph.fsckCyclesWithin]
      split
      · exact ih acc
      · obtain ⟨⟨b, met⟩, hrun⟩ := hasCycleDfsWithin_isSome hdepth d acc.2
        rw [hrun]
        cases b with
        | true =>
            obtain ⟨r, hr, more, hmore⟩ := ih (acc.1 ++ [.dirCycle d], met)
            refine ⟨r, hr, d :: more, ?_⟩
            rw [hmore, List.append_assoc]
            rfl
        | false => exact ih (acc.1, met)

/-- As long as nothing was found the loop has left what it met; so it finds nothing exactly if no cycle is
    reached from any of the directories. -/
theorem fsckCyclesWithin_spec {depth : Nat} (hdepth : g.dirContains.size + 1 < depth) (dirs : List DirId) :
    ∀ {met r}, met.2 = ∅ → Descent.Left g.childDirs met →
      g.fsckCyclesWithin depth dirs ([], met) = some r →
        if r.1 = [] then r.2.2 = ∅ ∧ met.1 ⊆ r.2.1 ∧ (∀ d ∈ dirs, d ∈ r.2.1) ∧ Descent.Left g.childDirs r.2
        else ∃ d ∈ dirs, Descent.CycleBelow g.childDirs d := by
  induction dirs with
  | nil =>
      intro met r hstack hleft hrun
      cases hrun
      exact ⟨hstack, Finset.Subset.refl _, fun d hd => absurd hd List.not_mem_nil, hleft⟩
  | cons d dirs ih =>
      intro met r hstack hleft hrun
      rw [TypeGraph.fsckCyclesWithin] at hrun
      dsimp only at hrun
      split at hrun
      · rename_i hmem
        have hrest := ih hstack hleft hrun
        split
        · rename_i hnil
          rw [if_pos hnil] at hrest
          obtain ⟨hstack', hgrows, hall, hleft'⟩ := hrest
          exact ⟨hstack', hgrows, List.forall_mem_cons.mpr ⟨hgrows hmem, hall⟩, hleft'⟩
        · rename_i hcons
          rw [if_neg hcons] at hrest
          obtain ⟨d', hd', hcycle⟩ := hrest
          exact ⟨d', List.mem_cons_of_mem d hd', hcycle⟩
      · rename_i hmem
        have hout : d ∉ met.2 := by
          rw [hstack]
          exact Finset.notMem_empty d
        obtain ⟨⟨b, met'⟩, hdfs⟩ := hasCycleDfsWithin_isSome hdepth d met
        have hspec := Descent.markSearch_spec (c := d) (by rw [hstack]; exact Finset.empty_subset _)
          (by
            rw [hstack]
            exact fun p hp => absurd hp (Finset.notMem_empty p)) hleft
          ((hasCycleDfsWithin_fresh hmem hout).trans hdfs)
        rw [hdfs] at hrun
        cases b with
        | true =>
            obtain ⟨r', hr', more, hmore⟩ := fsckCyclesWithin_isSome hdepth dirs ([] ++ [.dirCycle d], met')
            have hsame : r' = r := Option.some.inj (hr'.symm.trans hrun)
            subst hsame
            rw [if_neg (by rw [hmore]; simp)]
            exact ⟨d, List.mem_cons_self, hspec⟩
        | false =>
            obtain ⟨hstack', hgrows', hd, _, hleft'⟩ := hspec
            have hrest := ih (hstack'.trans hstack) hleft' hrun
            split
            · rename_i hnil
              rw [if_pos hnil] at hrest
              obtain ⟨hstack'', hgrows, hall, hleft''⟩ := hrest
              exact ⟨hstack'', hgrows'.trans hgrows, List.forall_mem_cons.mpr ⟨hgrows hd, hall⟩, hleft''⟩
            · rename_i hcons
              rw [if_neg hcons] at hrest
              obtain ⟨d', hd', hcycle⟩ := hrest
              exact ⟨d', List.mem_cons_of_mem d hd', hcycle⟩

/-- The loop of fsck is that loop. -/
theorem fsckCyclesWithin_eq {depth : Nat} (hdepth : g.dirContains.size + 1 < depth) (dirs : List DirId) :
    ∀ acc, g.fsckCyclesWithin depth dirs acc = some (dirs.foldl g.fsckCycleFrom acc) := by
  induction dirs with
  | nil =>
      intro acc
      rfl
  | cons d dirs ih =>
      intro acc
      rw [TypeGraph.fsckCyclesWithin, List.foldl_cons, TypeGraph.fsckCycleFrom]
      by_cases hmem : d ∈ acc.2.1
      · rw [if_pos hmem, if_pos hmem]
        exact ih acc
      · rw [if_neg hmem, if_neg hmem]
        obtain ⟨⟨b, met⟩, hrun⟩ := hasCycleDfsWithin_isSome
          (Nat.lt_succ_self (g.dirContains.size + 1)) d acc.2
        rw [hasCycleDfsWithin_mono (by omega) hrun, hasCycleDfs_eq hrun]
        cases b with
        | true => exact ih _
        | false => exact ih _

theorem FsckError.dirCycle_iff {e : FsckError} : e.invariant = "NoDirCycles" ↔ ∃ d, e = .dirCycle d := by
  constructor
  · intro he
    cases e with
    | dirCycle d => exact ⟨d, rfl⟩
    | _ => exact absurd he (by simp [FsckError.invariant])
  · rintro ⟨d, rfl⟩
    rfl

/-- An error about a cycle comes from the cycle search. -/
theorem mem_fsck_dirCycle {d : DirId} : .dirCycle d ∈ (fsck g).errors ↔ .dirCycle d ∈ g.fsckCycles := by
  have hedges : FsckError.dirCycle d ∉ g.fsckEdges := by
    intro hmem
    obtain ⟨⟨x, edge⟩, _, hmem⟩ := List.mem_flatMap.mp hmem
    cases edge <;> simp at hmem
  have hlinks : FsckError.dirCycle d ∉ g.fsckLinkCounts := by
    intro hmem
    obtain ⟨⟨x, inode⟩, _, hmem⟩ := List.mem_flatMap.mp hmem
    simp at hmem
  have hnames : FsckError.dirCycle d ∉ g.fsckNames := by
    intro hmem
    obtain ⟨⟨x, ids⟩, _, hmem⟩ := List.mem_flatMap.mp hmem
    simp at hmem
  have hblocks : FsckError.dirCycle d ∉ g.fsckBlocks := by
    intro hmem
    obtain ⟨⟨x, block⟩, _, hmem⟩ := List.mem_flatMap.mp hmem
    simp at hmem
  have hxattrs : FsckError.dirCycle d ∉ g.fsckXattrs := by
    intro hmem
    obtain ⟨⟨x, ids⟩, _, hmem⟩ := List.mem_flatMap.mp hmem
    simp at hmem
  simp [fsck, hedges, hlinks, hnames, hblocks, hxattrs]

/-- The search of fsck reports a cycle exactly if one is reached from some directory. -/
theorem fsckCycles_ne_nil_iff : g.fsckCycles ≠ [] ↔
    ∃ d ∈ g.dirs.iter.map fun entry => entry.2.id, Descent.CycleBelow g.childDirs d := by
  have hrun := fsckCyclesWithin_eq (g := g) (Nat.lt_succ_self _) (g.dirs.iter.map fun entry => entry.2.id)
    ([], (∅, ∅))
  have hspec := fsckCyclesWithin_spec (Nat.lt_succ_self _) _ rfl
    (fun x hx => absurd hx (Finset.notMem_empty x)) hrun
  rw [TypeGraph.fsckCycles]
  constructor
  · intro hne
    rwa [if_neg hne] at hspec
  · rintro ⟨d, hd, x, hx, hcycle⟩ hnil
    rw [if_pos hnil] at hspec
    obtain ⟨hstack, _, hall, hleft⟩ := hspec
    have hout : ∀ y, y ∉ (List.foldl g.fsckCycleFrom ([], (∅, ∅))
        (g.dirs.iter.map fun entry => entry.2.id)).2.2 := by
      intro y
      rw [hstack]
      exact Finset.notMem_empty y
    obtain ⟨hmem, _⟩ := hleft.reach ⟨hall d hd, hout d⟩ hx
    exact (hleft x hmem (hout x)).2 hcycle

/-- All that the cycle search of fsck reports are cycles. -/
theorem exists_dirCycle_iff : (∃ d, .dirCycle d ∈ g.fsckCycles) ↔ g.fsckCycles ≠ [] := by
  obtain ⟨r, hr, more, hmore⟩ := fsckCyclesWithin_isSome (g := g) (Nat.lt_succ_self _)
    (g.dirs.iter.map fun entry => entry.2.id) ([], (∅, ∅))
  rw [fsckCyclesWithin_eq (Nat.lt_succ_self _)] at hr
  cases hr
  have hcycles : g.fsckCycles = more.map .dirCycle := hmore
  rw [hcycles]
  constructor
  · rintro ⟨d, hd⟩
    exact List.ne_nil_of_mem hd
  · intro hne
    obtain ⟨d, hd⟩ := List.exists_mem_of_ne_nil more fun h => hne (by rw [h]; rfl)
    exact ⟨d, List.mem_map_of_mem hd⟩

end Checkers

/-- The two cycle checkers agree: on every graph whose directories are stored under their ids, cyclic or
    not, both searches end, and fsck reports a cycle exactly if check_no_dir_cycles does, exactly if a cycle
    of entries is reached from a live directory. -/
theorem cycleCheckers_agree (g : TypeGraph) (hids : ∀ s d, g.dirs.data s = some d → d.id = s) :
    (∀ depth, g.dirContains.size + 1 < depth →
      g.checkNoDirCyclesWithin depth (g.dirs.iter.map Prod.fst) = some g.checkNoDirCycles ∧
        (g.fsckCyclesWithin depth (g.dirs.iter.map fun entry => entry.2.id) ([], (∅, ∅))).map Prod.fst =
          some g.fsckCycles) ∧
      [∃ e ∈ (fsck g).errors, e.invariant = "NoDirCycles",
        g.checkNoDirCycles ≠ .ok (),
        ∃ d x, (∃ dir, g.getDir d = some dir ∧ dir.id = d) ∧ ReflTransGen g.Enters d x ∧
          TransGen g.Enters x x].TFAE := by
  have hroots : (g.dirs.iter.map fun entry => entry.2.id) = g.dirs.iter.map Prod.fst := by
    refine List.map_congr_left ?_
    rintro ⟨s, d⟩ hmem
    exact hids s d (Arena.mem_iter.mp hmem)
  have hcycle : (∃ d ∈ g.dirs.iter.map Prod.fst, Descent.CycleBelow g.childDirs d) ↔
      ∃ d x, (∃ dir, g.getDir d = some dir ∧ dir.id = d) ∧ ReflTransGen g.Enters d x ∧
        TransGen g.Enters x x := by
    rw [← TypeGraph.childDirs_rel]
    constructor
    · rintro ⟨d, hd, x, hx, hxx⟩
      obtain ⟨⟨s, dir⟩, hmem, rfl⟩ := List.mem_map.mp hd
      have hdir := Arena.mem_iter.mp hmem
      have hslot : idToArena s = s := by
        refine idToArena_of_lt ?_
        have hlt := g.dirs.lt_nextBump hdir
        have hle := g.dirs.nextBump_le
        have hcap : NODE_CAPACITY < 2 ^ 32 := by decide
        omega
      refine ⟨s, x, ⟨dir, ?_, hids s dir hdir⟩, hx, hxx⟩
      rw [TypeGraph.getDir, Arena.get_eq_data, hslot, hdir]
    · rintro ⟨d, x, ⟨dir, hdir, hid⟩, hx, hxx⟩
      rw [TypeGraph.getDir, Arena.get_eq_data] at hdir
      have hslot : idToArena d = d := by rw [← hids _ _ hdir, hid]
      rw [hslot] at hdir
      exact ⟨d, List.mem_map.mpr ⟨(d, dir), Arena.mem_iter.mpr hdir, rfl⟩, x, hx, hxx⟩
  have hcheck : ¬ g.checkNoDirCycles = .ok () ↔
      ∃ d ∈ g.dirs.iter.map Prod.fst, Descent.CycleBelow g.childDirs d := by
    obtain ⟨r, hr, hiff⟩ := checkNoDirCyclesWithin_spec (Nat.lt_add_of_pos_right Nat.two_pos)
      (g.dirs.iter.map Prod.fst)
    rw [checkNoDirCycles_eq (by omega)] at hr
    cases hr
    rw [hiff]
    simp only [not_forall, not_not, exists_prop]
  have hfsck : (∃ e ∈ (fsck g).errors, e.invariant = "NoDirCycles") ↔
      ∃ d ∈ g.dirs.iter.map Prod.fst, Descent.CycleBelow g.childDirs d := by
    rw [← hroots, ← fsckCycles_ne_nil_iff, ← exists_dirCycle_iff]
    constructor
    · rintro ⟨e, hmem, he⟩
      obtain ⟨d, rfl⟩ := FsckError.dirCycle_iff.mp he
      exact ⟨d, mem_fsck_dirCycle.mp hmem⟩
    · rintro ⟨d, hd⟩
      exact ⟨_, mem_fsck_dirCycle.mpr hd, FsckError.dirCycle_iff.mpr ⟨d, rfl⟩⟩
  refine ⟨fun depth hdepth => ⟨checkNoDirCycles_eq hdepth, ?_⟩, ?_⟩
  · rw [fsckCyclesWithin_eq hdepth]
    rfl
  · tfae_have 1 ↔ 3 := hfsck.trans hcycle
    tfae_have 2 ↔ 3 := hcheck.trans hcycle
    tfae_finish

/-- A directory entered below its own child: both checkers see the cycle. -/
theorem cycleCheckers_agree_loop :
    let g := ((TypeGraph.new 0).calls (fun _ => 0)
      [.mkdir 1 "d" 0 0 .dirDefault, .mkdir 2 "e" 0 0 .dirDefault]).addContains 50 3 2 "x"
    g.checkNoDirCycles ≠ .ok () ∧ ∃ e ∈ (fsck g).errors, e.invariant = "NoDirCycles" := by
  have hids : ∀ s d, (((TypeGraph.new 0).calls (fun _ => 0)
      [.mkdir 1 "d" 0 0 .dirDefault, .mkdir 2 "e" 0 0 .dirDefault]).addContains 50 3 2 "x").dirs.data s =
        some d → d.id = s := by
    have hinv : Inv ((TypeGraph.new 0).calls (fun _ => 0)
        [.mkdir 1 "d" 0 0 .dirDefault, .mkdir 2 "e" 0 0 .dirDefault]) :=
      Reachable.inv (Run.calls _ (.new 0) (by decide))
    intro s d hs
    exact hinv.dirIds.id_eq hs
  have hcycle : (((TypeGraph.new 0).calls (fun _ => 0)
      [.mkdir 1 "d" 0 0 .dirDefault, .mkdir 2 "e" 0 0 .dirDefault]).addContains 50 3 2 "x").checkNoDirCycles ≠
        .ok () := by
    intro h
    have hok : (((TypeGraph.new 0).calls (fun _ => 0)
      [.mkdir 1 "d" 0 0 .dirDefault, .mkdir 2 "e" 0 0 .dirDefault]).addContains 50 3 2
        "x").checkNoDirCycles.isOk = false := by decide
    rw [h] at hok
    cases hok
  exact ⟨hcycle, ((cycleCheckers_agree _ hids).2.out 0 1).mpr hcycle⟩

end SotFs
