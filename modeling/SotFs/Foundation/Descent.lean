/-
Module: SotFs.Foundation.Descent
Layer: Foundation
Purpose: Recursive searches over a successor function, with the depth of the recursion as a bound that may be
  exceeded. A search is given by what it answers on sight of a node, and by what it records on the way into
  a node and takes back on the way out of one below which it found nothing. The rule for runs asks for what
  one node does; a search that marks the nodes it is in ends.
Trusted boundary: none
Main exports: firstChild, Descent, Descent.run, Descent.run_rule, Descent.run_isSome, Descent.targetSearch,
  Descent.pathSearch, Descent.markSearch, Descent.pathSearch_spec, Descent.markSearch_spec
-/
import SotFs.Foundation.GraphSearch

namespace Foundation

open Relation

/-- Try the children in order, threading the state, until one answers `true` or does not return. -/
def firstChild {α V : Type} (visit : α → V → Option (Bool × V)) : List α → V → Option (Bool × V)
  | [], v => some (false, v)
  | c :: cs, v =>
      match visit c v with
      | none => none
      | some (true, v') => some (true, v')
      | some (false, v') => firstChild visit cs v'

/-- A recursive search. -/
structure Descent (α V : Type) where
  /-- The nodes below a node. -/
  succ : α → List α
  /-- The answer on sight of a node, if it is not entered. -/
  sight : α → V → Option Bool
  /-- What is recorded on the way in. -/
  push : α → V → V
  /-- What is taken back on the way out. -/
  pop : α → V → V

namespace Descent

variable {α V : Type}

/-- The search from a node, within a depth: `none` when the recursion gets deeper. -/
def run (D : Descent α V) : Nat → α → V → Option (Bool × V)
  | 0, _, _ => none
  | fuel + 1, c, v =>
      match D.sight c v with
      | some answer => some (answer, v)
      | none =>
          match firstChild (D.run fuel) (D.succ c) (D.push c v) with
          | none => none
          | some (true, v') => some (true, v')
          | some (false, v') => some (false, D.pop c v')

section Rule

/-- Children whose visits keep `Loop` of the children done so far, or reach `Found`. -/
theorem firstChild_rule (visit : α → V → Option (Bool × V)) (Loop : List α → V → Prop) (Found : V → Prop)
    (children : List α)
    (hmiss : ∀ done c u u', c ∈ children → Loop done u → visit c u = some (false, u') → Loop (done ++ [c]) u')
    (hfound : ∀ done c u u', c ∈ children → Loop done u → visit c u = some (true, u') → Found u') :
    ∀ cs, cs ⊆ children → ∀ done u b u', Loop done u → firstChild visit cs u = some (b, u') →
      if b then Found u' else Loop (done ++ cs) u' := by
  intro cs
  induction cs with
  | nil =>
      intro _ done u b u' hloop hrun
      cases hrun
      rwa [List.append_nil]
  | cons c cs ih =>
      intro hsub done u b u' hloop hrun
      obtain ⟨hc, hcs⟩ := List.cons_subset.mp hsub
      rw [firstChild] at hrun
      split at hrun
      · cases hrun
      · rename_i v hv
        cases hrun
        exact hfound done c u _ hc hloop hv
      · rename_i v hv
        have hrest := ih hcs (done ++ [c]) v b u' (hmiss done c u v hc hloop hv) hrun
        rwa [List.append_assoc, List.singleton_append] at hrest

/-- Children whose visits return, as long as `P` holds. -/
theorem firstChild_isSome (visit : α → V → Option (Bool × V)) (P : V → Prop) (cs : List α)
    (hvisit : ∀ c ∈ cs, ∀ u, P u → ∃ b u', visit c u = some (b, u') ∧ (b = false → P u')) :
    ∀ u, P u → ∃ b u', firstChild visit cs u = some (b, u') ∧ (b = false → P u') := by
  induction cs with
  | nil =>
      intro u hu
      exact ⟨false, u, rfl, fun _ => hu⟩
  | cons c cs ih =>
      intro u hu
      obtain ⟨b, u', hreturn, hkeep⟩ := hvisit c List.mem_cons_self u hu
      rw [firstChild, hreturn]
      cases b with
      | true => exact ⟨true, u', rfl, fun hfalse => absurd hfalse (by decide)⟩
      | false => exact ih (fun d hd => hvisit d (List.mem_cons_of_mem c hd)) u' (hkeep rfl)

theorem firstChild_mono {visit visit' : α → V → Option (Bool × V)}
    (hvisit : ∀ c v r, visit c v = some r → visit' c v = some r) (cs : List α) :
    ∀ {v r}, firstChild visit cs v = some r → firstChild visit' cs v = some r := by
  induction cs with
  | nil =>
      intro v r hrun
      exact hrun
  | cons c cs ih =>
      intro v r hrun
      rw [firstChild] at hrun ⊢
      cases hc : visit c v with
      | none =>
          rw [hc] at hrun
          cases hrun
      | some answer =>
          rw [hc] at hrun
          rw [hvisit c v answer hc]
          obtain ⟨b, v'⟩ := answer
          cases b with
          | true => exact hrun
          | false => exact ih hrun

/-- A deeper bound changes nothing once the search returns. -/
theorem run_mono {D : Descent α V} : ∀ {fuel fuel' : Nat}, fuel ≤ fuel' → ∀ (c : α) (v : V)
    (r : Bool × V), D.run fuel c v = some r → D.run fuel' c v = some r := by
  intro fuel
  induction fuel with
  | zero =>
      intro fuel' _ c v r hrun
      cases hrun
  | succ fuel ih =>
      intro fuel' hle c v r hrun
      obtain ⟨fuel', rfl⟩ : ∃ n, fuel' = n + 1 := ⟨fuel' - 1, by omega⟩
      rw [run] at hrun ⊢
      cases hsight : D.sight c v with
      | some answer =>
          rw [hsight] at hrun
          exact hrun
      | none =>
          rw [hsight] at hrun
          dsimp only at hrun ⊢
          cases hchildren : firstChild (D.run fuel) (D.succ c) (D.push c v) with
          | none =>
              rw [hchildren] at hrun
              cases hrun
          | some answer =>
              rw [hchildren] at hrun
              rw [firstChild_mono (ih (by omega)) _ hchildren]
              exact hrun

variable {D : Descent α V} {Pre : α → V → Prop} {Post : α → V → Bool → V → Prop}
  {Loop : α → V → List α → V → Prop}

/-- What holds of a search from what one node does: `Loop c v done` relates the state in which `c` was entered
    to the state after its children `done`. -/
theorem run_rule (Pre : α → V → Prop) (Post : α → V → Bool → V → Prop)
    (Loop : α → V → List α → V → Prop) (hsight : ∀ c v b, Pre c v → D.sight c v = some b → Post c v b v)
    (henter : ∀ c v, Pre c v → D.sight c v = none → Loop c v [] (D.push c v))
    (hchild : ∀ c v done k u, k ∈ D.succ c → Loop c v done u → Pre k u)
    (hmiss : ∀ c v done k u u', k ∈ D.succ c → Loop c v done u → Post k u false u' →
      Loop c v (done ++ [k]) u')
    (hfound : ∀ c v done k u u', k ∈ D.succ c → Loop c v done u → Post k u true u' → Post c v true u')
    (hleave : ∀ c v u, Loop c v (D.succ c) u → Post c v false (D.pop c u)) :
    ∀ fuel c v b v', Pre c v → D.run fuel c v = some (b, v') → Post c v b v' := by
  intro fuel
  induction fuel with
  | zero =>
      intro c v b v' _ hrun
      cases hrun
  | succ fuel ih =>
      intro c v b v' hpre hrun
      rw [run] at hrun
      split at hrun
      · rename_i answer hanswer
        cases hrun
        exact hsight c v _ hpre hanswer
      · rename_i hnone
        have hall := firstChild_rule (D.run fuel) (Loop c v) (Post c v true) (D.succ c)
          (fun done k u u' hk hloop hvisit => hmiss c v done k u u' hk hloop
            (ih k u false u' (hchild c v done k u hk hloop) hvisit))
          (fun done k u u' hk hloop hvisit => hfound c v done k u u' hk hloop
            (ih k u true u' (hchild c v done k u hk hloop) hvisit))
          (D.succ c) (List.Subset.refl _) [] (D.push c v)
        split at hrun
        · cases hrun
        · rename_i w hw
          cases hrun
          exact hall true _ (henter c v hpre hnone) hw
        · rename_i w hw
          cases hrun
          exact hleave c v w (hall false _ (henter c v hpre hnone) hw)

end Rule

section Total

variable [DecidableEq α] {D : Descent α V} {mark : V → Finset α} {keys : Finset α}

/-- A search that marks the nodes it is in ends: each node that is entered is one unmarked key less. -/
theorem run_isSome (D : Descent α V) (mark : V → Finset α) (hkeys : ∀ x, D.succ x ≠ [] → x ∈ keys)
    (hsight : ∀ c v, D.sight c v = none → c ∉ mark v)
    (hpush : ∀ c v, insert c (mark v) ⊆ mark (D.push c v))
    (hpop : ∀ c v, (mark v).erase c ⊆ mark (D.pop c v)) :
    ∀ fuel c v, (keys \ mark v).card < fuel →
      ∃ b v', D.run fuel c v = some (b, v') ∧ (b = false → mark v ⊆ mark v') := by
  intro fuel
  induction fuel with
  | zero =>
      intro c v hlt
      omega
  | succ fuel ih =>
      intro c v hlt
      rw [run]
      split
      · rename_i answer _
        exact ⟨answer, v, rfl, fun _ => Finset.Subset.refl _⟩
      · rename_i hnone
        have hfresh := hsight c v hnone
        have hroom : ∀ k ∈ D.succ c, ∀ u, insert c (mark v) ⊆ mark u → (keys \ mark u).card < fuel := by
          intro k hk u hu
          have hmem : c ∈ keys := hkeys c (List.ne_nil_of_mem hk)
          have hless : (keys \ mark u).card < (keys \ mark v).card := by
            refine Finset.card_lt_card (Finset.ssubset_iff_of_subset ?_ |>.mpr ?_)
            · exact Finset.sdiff_subset_sdiff (Finset.Subset.refl _) ((Finset.subset_insert _ _).trans hu)
            · refine ⟨c, Finset.mem_sdiff.mpr ⟨hmem, hfresh⟩, ?_⟩
              intro hc
              exact (Finset.mem_sdiff.mp hc).2 (hu (Finset.mem_insert_self _ _))
          omega
        obtain ⟨b, u', hchildren, hgrows⟩ := firstChild_isSome (D.run fuel)
          (fun u => insert c (mark v) ⊆ mark u) (D.succ c)
          (fun k hk u hu => by
            obtain ⟨b, u', hvisit, hkeep⟩ := ih k u (hroom k hk u hu)
            exact ⟨b, u', hvisit, fun hb => hu.trans (hkeep hb)⟩)
          (D.push c v) (hpush c v)
        rw [hchildren]
        cases b with
        | true => exact ⟨true, u', rfl, fun hfalse => absurd hfalse (by decide)⟩
        | false =>
            refine ⟨false, D.pop c u', rfl, fun _ => ?_⟩
            refine Finset.Subset.trans ?_ (hpop c u')
            intro x hx
            refine Finset.mem_erase.mpr ⟨?_, hgrows rfl (Finset.mem_insert_of_mem hx)⟩
            rintro rfl
            exact hfresh hx

end Total

/-! ### Searches for a node and for a cycle -/

section Searches

variable [DecidableEq α]

/-- The search for a target; a node is entered once. -/
def targetSearch (succ : α → List α) (target : α) : Descent α (Finset α) where
  succ := succ
  sight c visited := if c = target then some true else if c ∈ visited then some false else none
  push := insert
  pop _ visited := visited

/-- The search for a node of the own path. -/
def pathSearch (succ : α → List α) : Descent α (Finset α) where
  succ := succ
  sight c path := if c ∈ path then some true else none
  push := insert
  pop c path := path.erase c

/-- The search for a node of the own path in which a node is entered once. -/
def markSearch (succ : α → List α) : Descent α (Finset α × Finset α) where
  succ := succ
  sight c met := if c ∈ met.2 then some true else if c ∈ met.1 then some false else none
  push c met := (insert c met.1, insert c met.2)
  pop c met := (met.1, met.2.erase c)

/-- A cycle is reached from a node. -/
def CycleBelow (succ : α → List α) (c : α) : Prop :=
  ∃ x, ReflTransGen (fun a b => b ∈ succ a) c x ∧ TransGen (fun a b => b ∈ succ a) x x

variable {succ : α → List α} {c : α}

omit [DecidableEq α] in
theorem CycleBelow.of_succ {k : α} (hk : k ∈ succ c) (h : CycleBelow succ k) : CycleBelow succ c := by
  obtain ⟨x, hx, hcycle⟩ := h
  exact ⟨x, .head hk hx, hcycle⟩

/-- The search by the own path answers whether a cycle is reached, and leaves the path as it was if not. -/
theorem pathSearch_spec {fuel : Nat} {path path' : Finset α} {b : Bool}
    (hpath : ∀ p ∈ path, TransGen (fun a b => b ∈ succ a) p c)
    (hrun : (pathSearch succ).run fuel c path = some (b, path')) :
    if b then CycleBelow succ c
    else path' = path ∧ ∀ x, ReflTransGen (fun a b => b ∈ succ a) c x →
      x ∉ path ∧ ¬ TransGen (fun a b => b ∈ succ a) x x := by
  refine run_rule (D := pathSearch succ)
    (fun c path => ∀ p ∈ path, TransGen (fun a b => b ∈ succ a) p c)
    (fun c path b path' => if b then CycleBelow succ c
      else path' = path ∧ ∀ x, ReflTransGen (fun a b => b ∈ succ a) c x →
        x ∉ path ∧ ¬ TransGen (fun a b => b ∈ succ a) x x)
    (fun c path done u => (∀ p ∈ path, TransGen (fun a b => b ∈ succ a) p c) ∧ c ∉ path ∧
      u = insert c path ∧ ∀ k ∈ done, ∀ x, ReflTransGen (fun a b => b ∈ succ a) k x →
        x ∉ insert c path ∧ ¬ TransGen (fun a b => b ∈ succ a) x x)
    ?_ ?_ ?_ ?_ ?_ ?_ fuel c path b path' hpath hrun
  · intro c path b hpre hsight
    dsimp only [pathSearch] at hsight
    split at hsight
    · rename_i hc
      cases hsight
      exact ⟨c, .refl, hpre c hc⟩
    · cases hsight
  · intro c path hpre hsight
    dsimp only [pathSearch] at hsight
    split at hsight
    · cases hsight
    · rename_i hc
      exact ⟨hpre, hc, rfl, fun k hk => absurd hk List.not_mem_nil⟩
  · rintro c path done k u hk ⟨hpre, _, rfl, _⟩ p hp
    rcases Finset.mem_insert.mp hp with rfl | hp
    · exact .single hk
    · exact (hpre p hp).tail hk
  · rintro c path done k u u' hk ⟨hpre, hc, rfl, hdone⟩ hmiss
    obtain ⟨rfl, hclear⟩ := hmiss
    refine ⟨hpre, hc, rfl, fun k' hk' => ?_⟩
    rcases List.mem_append.mp hk' with hk' | hk'
    · exact hdone k' hk'
    · rw [List.mem_singleton.mp hk']
      exact hclear
  · rintro c path done k u u' hk _ hfound
    exact CycleBelow.of_succ hk hfound
  · rintro c path u ⟨_, hc, rfl, hdone⟩
    refine ⟨Finset.erase_insert hc, fun x hx => ?_⟩
    have hcycle : ¬ TransGen (fun a b => b ∈ succ a) c c := by
      intro hcc
      obtain ⟨k, hk, hkc⟩ := TransGen.head'_iff.mp hcc
      exact (hdone k hk c hkc).1 (Finset.mem_insert_self _ _)
    rcases ReflTransGen.cases_head hx with rfl | ⟨k, hk, hkx⟩
    · exact ⟨hc, hcycle⟩
    · obtain ⟨hout, hacyclic⟩ := hdone k hk x hkx
      exact ⟨fun hmem => hout (Finset.mem_insert_of_mem hmem), hacyclic⟩

/-- What has been met and left: it leads only to what has been met and left, and lies on no cycle. -/
def Left (succ : α → List α) (met : Finset α × Finset α) : Prop :=
  ∀ x ∈ met.1, x ∉ met.2 →
    (∀ k ∈ succ x, k ∈ met.1 ∧ k ∉ met.2) ∧ ¬ TransGen (fun a b => b ∈ succ a) x x

omit [DecidableEq α] in
/-- What has been left leads to what has been left. -/
theorem Left.reach {met : Finset α × Finset α} (h : Left succ met) {x y : α} (hx : x ∈ met.1 ∧ x ∉ met.2)
    (hxy : ReflTransGen (fun a b => b ∈ succ a) x y) : y ∈ met.1 ∧ y ∉ met.2 := by
  induction hxy with
  | refl => exact hx
  | tail _ hstep ih => exact (h _ ih.1 ih.2).1 _ hstep

/-- The search with marks: it answers `true` only if a cycle is reached; else it has met and left the node,
    and its path is as it was. -/
theorem markSearch_spec {fuel : Nat} {met met' : Finset α × Finset α} {b : Bool} (hsub : met.2 ⊆ met.1)
    (hpath : ∀ p ∈ met.2, TransGen (fun a b => b ∈ succ a) p c) (hleft : Left succ met)
    (hrun : (markSearch succ).run fuel c met = some (b, met')) :
    if b then CycleBelow succ c
    else met'.2 = met.2 ∧ met.1 ⊆ met'.1 ∧ c ∈ met'.1 ∧ c ∉ met.2 ∧ Left succ met' := by
  refine run_rule (D := markSearch succ)
    (fun c met => met.2 ⊆ met.1 ∧ (∀ p ∈ met.2, TransGen (fun a b => b ∈ succ a) p c) ∧ Left succ met)
    (fun c met b met' => if b then CycleBelow succ c
      else met'.2 = met.2 ∧ met.1 ⊆ met'.1 ∧ c ∈ met'.1 ∧ c ∉ met.2 ∧ Left succ met')
    (fun c met done u => met.2 ⊆ met.1 ∧ (∀ p ∈ met.2, TransGen (fun a b => b ∈ succ a) p c) ∧
      c ∉ met.1 ∧ u.2 = insert c met.2 ∧ met.1 ⊆ u.1 ∧ c ∈ u.1 ∧ Left succ u ∧
      ∀ k ∈ done, k ∈ u.1 ∧ k ∉ u.2)
    ?_ ?_ ?_ ?_ ?_ ?_ fuel c met b met' ⟨hsub, hpath, hleft⟩ hrun
  · rintro c met b ⟨hsub, hpath, hleft⟩ hsight
    dsimp only [markSearch] at hsight
    split at hsight
    · rename_i hc
      cases hsight
      exact ⟨c, .refl, hpath c hc⟩
    · rename_i hc
      split at hsight
      · rename_i hmet
        cases hsight
        exact ⟨rfl, Finset.Subset.refl _, hmet, hc, hleft⟩
      · cases hsight
  · rintro c met ⟨hsub, hpath, hleft⟩ hsight
    dsimp only [markSearch] at hsight
    split at hsight
    · cases hsight
    · split at hsight
      · cases hsight
      · rename_i hstack hmet
        refine ⟨hsub, hpath, hmet, rfl, Finset.subset_insert _ _, Finset.mem_insert_self _ _, ?_,
          fun k hk => absurd hk List.not_mem_nil⟩
        intro x hx hout
        dsimp only [markSearch] at hx hout
        have hxc : x ≠ c := fun h => hout (h ▸ Finset.mem_insert_self _ _)
        have hxmet : x ∈ met.1 := (Finset.mem_insert.mp hx).resolve_left hxc
        obtain ⟨hkids, hacyclic⟩ := hleft x hxmet fun h => hout (Finset.mem_insert_of_mem h)
        refine ⟨fun k hk => ?_, hacyclic⟩
        obtain ⟨hkmet, hkout⟩ := hkids k hk
        refine ⟨Finset.mem_insert_of_mem hkmet, fun h => ?_⟩
        rcases Finset.mem_insert.mp h with rfl | h
        · exact hmet hkmet
        · exact hkout h
  · rintro c met done k u hk ⟨hsub, hpath, _, hstack, hgrows, hcu, hleft, _⟩
    refine ⟨?_, ?_, hleft⟩
    · rw [hstack]
      exact Finset.insert_subset hcu (hsub.trans hgrows)
    · intro p hp
      rw [hstack] at hp
      rcases Finset.mem_insert.mp hp with rfl | hp
      · exact .single hk
      · exact (hpath p hp).tail hk
  · rintro c met done k u u' hk ⟨hsub, hpath, hfresh, hstack, hgrows, hcu, _, hdone⟩ hmiss
    obtain ⟨hstack', hgrows', hku, hkout, hleft'⟩ := hmiss
    refine ⟨hsub, hpath, hfresh, hstack'.trans hstack, hgrows.trans hgrows', hgrows' hcu, hleft', ?_⟩
    intro k' hk'
    rw [hstack']
    rcases List.mem_append.mp hk' with hk' | hk'
    · exact ⟨hgrows' (hdone k' hk').1, (hdone k' hk').2⟩
    · rw [List.mem_singleton.mp hk']
      exact ⟨hku, hkout⟩
  · rintro c met done k u u' hk _ hfound
    exact CycleBelow.of_succ hk hfound
  · rintro c met u ⟨hsub, _, hfresh, hstack, hgrows, hcu, hleft, hdone⟩
    have hcout : c ∉ met.2 := fun h => hfresh (hsub h)
    have herase : u.2.erase c = met.2 := by rw [hstack, Finset.erase_insert hcout]
    refine ⟨herase, hgrows, hcu, hcout, ?_⟩
    intro x hx hout
    dsimp only [markSearch] at hx hout ⊢
    have hkept : ∀ k, k ∉ u.2 → k ∉ u.2.erase c := fun k hk h => hk (Finset.mem_of_mem_erase h)
    by_cases hxc : x = c
    · subst hxc
      refine ⟨fun k hk => ⟨(hdone k hk).1, hkept k (hdone k hk).2⟩, fun hcycle => ?_⟩
      obtain ⟨k, hk, hkx⟩ := TransGen.head'_iff.mp hcycle
      refine (hleft.reach (hdone k hk) hkx).2 ?_
      rw [hstack]
      exact Finset.mem_insert_self _ _
    · obtain ⟨hkids, hacyclic⟩ := hleft x hx fun h => hout (Finset.mem_erase.mpr ⟨hxc, h⟩)
      exact ⟨fun k hk => ⟨(hkids k hk).1, hkept k (hkids k hk).2⟩, hacyclic⟩

/-- Depth enough for the three searches: one more than the nodes that have successors. -/
theorem targetSearch_isSome (target c : α) (visited : Finset α) {keys : Finset α}
    (hkeys : ∀ x, succ x ≠ [] → x ∈ keys) {fuel : Nat} (hfuel : keys.card < fuel) :
    ∃ r, (targetSearch succ target).run fuel c visited = some r := by
  obtain ⟨b, v', hrun, _⟩ := run_isSome (targetSearch succ target) id hkeys
    (fun c v hsight => by
      dsimp only [targetSearch] at hsight
      split at hsight
      · cases hsight
      · split at hsight
        · cases hsight
        · assumption)
    (fun _ _ => Finset.Subset.refl _) (fun _ _ => Finset.erase_subset _ _) fuel c visited
    ((Finset.card_le_card Finset.sdiff_subset).trans_lt hfuel)
  exact ⟨_, hrun⟩

theorem pathSearch_isSome (c : α) (path : Finset α) {keys : Finset α}
    (hkeys : ∀ x, succ x ≠ [] → x ∈ keys) {fuel : Nat} (hfuel : keys.card < fuel) : ∃ r, (pathSearch succ).run fuel c path = some r := by
  obtain ⟨b, v', hrun, _⟩ := run_isSome (pathSearch succ) id hkeys
    (fun c v hsight => by
      dsimp only [pathSearch] at hsight
      split at hsight
      · cases hsight
      · assumption)
    (fun _ _ => Finset.Subset.refl _) (fun _ _ => Finset.Subset.refl _) fuel c path
    ((Finset.card_le_card Finset.sdiff_subset).trans_lt hfuel)
  exact ⟨_, hrun⟩

theorem markSearch_isSome (c : α) (met : Finset α × Finset α) {keys : Finset α}
    (hkeys : ∀ x, succ x ≠ [] → x ∈ keys) {fuel : Nat} (hfuel : keys.card < fuel) : ∃ r, (markSearch succ).run fuel c met = some r := by
  obtain ⟨b, v', hrun, _⟩ := run_isSome (markSearch succ) Prod.fst hkeys
    (fun c v hsight => by
      dsimp only [markSearch] at hsight
      split at hsight
      · cases hsight
      · split at hsight
        · cases hsight
        · assumption)
    (fun _ _ => Finset.Subset.refl _) (fun _ _ => Finset.erase_subset _ _) fuel c met
    ((Finset.card_le_card Finset.sdiff_subset).trans_lt hfuel)
  exact ⟨_, hrun⟩

end Searches

end Descent

end Foundation
