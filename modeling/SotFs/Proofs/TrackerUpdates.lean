/-
Module: SotFs.Proofs.TrackerUpdates
Layer: Proofs
Purpose: The update of the cached ordering after an edit. What an update does is one of four plans; the one
  that keeps the first steps replays them on the new lists and eliminates the other nodes anew. If the
  eliminations an update runs drop no fill edge, the ordering has the degrees of its order in the graph as it
  is now, although the degrees of the kept steps are those recorded before the edit.
Trusted boundary: none
Main exports: UpdatePlan, DynamicTreewidth.plan, maybeUpdate_eq, DynamicTreewidth.keepsFill, Ordered,
  replay_laterDegrees, Edited.ordered, TrackerOp.sound, TrackerRun.ordered
-/
import SotFs.Proofs.TrackerEdits

namespace SotFs

open Foundation

/-! ### Plans -/

/-- What an update does: it forgets the ordering of a tracker without nodes, eliminates everything anew,
    leaves the ordering as it is or keeps its first steps. -/
inductive UpdatePlan where
  | empty
  | full
  | unchanged
  | keep (earliestDirty : Nat)
deriving DecidableEq, Repr

namespace DynamicTreewidth

/-- The first steps are kept if all their nodes are there. -/
def keepPlan (t : DynamicTreewidth) (earliestDirty : Nat) : UpdatePlan :=
  if ((t.ordering.take earliestDirty).filter fun step => t.contains step.node).length < earliestDirty then .full
  else .keep earliestDirty

/-- The plan of an update. -/
def plan (t : DynamicTreewidth) : UpdatePlan :=
  if t.slots.length = 0 then .empty
  else if t.dirtyCount > (t.slots.length + 4) / 5 ∨ t.ordering.length = 0 then .full
  else
    let orderingLen := t.ordering.length
    let earliestDirty := (t.ordering.findIdx? fun step => t.isDirty step.node).getD orderingLen
    let hasNewNode := t.slots.any fun slot => (t.orderingPosition slot.id).isNone
    if earliestDirty ≥ orderingLen ∧ hasNewNode = false then
      let validOrderingLen := t.ordering.zipIdx.foldl
        (fun len entry => if t.contains entry.1.node then entry.2 + 1 else len) 0
      if validOrderingLen < orderingLen then
        t.keepPlan ((t.ordering.findIdx? fun step => !t.contains step.node).getD 0)
      else .unchanged
    else t.keepPlan earliestDirty

/-- The work lists and the eliminated nodes after the replay of the first steps. -/
def replayed (t : DynamicTreewidth) (earliestDirty : Nat) : List Slot × List Nat :=
  replay (t.ordering.take earliestDirty) t.slots []

/-- The number of nodes that a replay leaves. -/
def remainingCount (work : List Slot) (eliminated : List Nat) : Nat :=
  work.countP fun slot => !eliminated.contains slot.id

/-- The steps that follow the kept ones. -/
def suffix (t : DynamicTreewidth) (earliestDirty : Nat) : List Elimination :=
  let (work, eliminated) := t.replayed earliestDirty
  eliminateMin (remainingCount work eliminated) work eliminated

/-- The state that a plan leaves. -/
def follow (t : DynamicTreewidth) : UpdatePlan → DynamicTreewidth
  | .empty => { t with bound := 0, ordering := [], dirty := fun _ => false }
  | .full => t.fullRecompute
  | .unchanged => { t with dirty := fun _ => false }
  | .keep earliestDirty =>
      let ordering := t.ordering.take earliestDirty ++ t.suffix earliestDirty
      { t with bound := maxWidth ordering, ordering := ordering, dirty := fun _ => false }

/-- The eliminations that an update runs drop no fill edge. -/
def keepsFill (t : DynamicTreewidth) : Bool :=
  match t.plan with
  | .empty => true
  | .full => eliminateRoom t.slots.length t.slots []
  | .unchanged => true
  | .keep earliestDirty =>
      let (work, eliminated) := t.replayed earliestDirty
      replayRoom (t.ordering.take earliestDirty) t.slots [] &&
        eliminateRoom (remainingCount work eliminated) work eliminated

variable {t : DynamicTreewidth}

theorem reeliminateFrom_eq (e : Nat) : t.reeliminateFrom e = t.follow (t.keepPlan e) := by
  unfold reeliminateFrom keepPlan
  dsimp only
  split
  · rfl
  · rfl

/-- An update follows its plan. -/
theorem maybeUpdate_eq (t : DynamicTreewidth) : t.maybeUpdate = t.follow t.plan := by
  unfold maybeUpdate plan
  split
  · rfl
  · dsimp only
    split
    · rfl
    · rw [incrementalReeliminate]
      dsimp only
      split
      · split
        · exact reeliminateFrom_eq _
        · rfl
      · exact reeliminateFrom_eq _

theorem slots_follow (plan : UpdatePlan) : (t.follow plan).slots = t.slots := by
  cases plan <;> rfl

/-- Before the place that is looked for there is none. -/
theorem findIdx?_before {α : Type*} {l : List α} {p : α → Bool} {x : α} {n : Nat}
    (hx : x ∈ l.take ((l.findIdx? p).getD n)) : p x = false := by
  cases hidx : l.findIdx? p with
  | none => exact List.findIdx?_eq_none_iff.mp hidx x (List.mem_of_mem_take hx)
  | some i =>
      obtain ⟨_, _, hbefore⟩ := List.findIdx?_eq_some_iff_getElem.mp hidx
      rw [hidx, Option.getD_some] at hx
      obtain ⟨j, hj, rfl⟩ := List.mem_take_iff_getElem.mp hx
      simpa using hbefore j (lt_of_lt_of_le hj (min_le_left _ _))

/-- The nodes of kept steps are there. -/
theorem keepPlan_cases (e : Nat) : t.keepPlan e = .full ∨ t.keepPlan e = .keep e ∧
    (t.ordering.take e).length = e ∧ ∀ step ∈ t.ordering.take e, step.node ∈ t.slots.map Slot.id := by
  unfold keepPlan
  split
  · exact .inl rfl
  · rename_i hlength
    have hkept := not_lt.mp hlength
    have hfilter := List.length_filter_le (fun step => t.contains step.node) (t.ordering.take e)
    have htake := List.length_take_le e t.ordering
    refine .inr ⟨rfl, by omega, fun step hstep => ?_⟩
    have hall := List.length_filter_eq_length_iff.mp (le_antisymm hfilter (htake.trans hkept)) step hstep
    exact contains_iff.mp hall

theorem orderingPosition_isNone {id : Nat} :
    (t.orderingPosition id).isNone = false ↔ id ∈ t.ordering.map Elimination.node := by
  rw [orderingPosition, Option.isNone_eq_false_iff, List.findIdx?_isSome, List.any_eq_true, List.mem_map]
  simp only [beq_iff_eq]

/-- What is known of the tracker from the plan: the nodes of kept steps are there and not flagged. -/
theorem plan_cases (t : DynamicTreewidth) :
    (t.plan = .empty ∧ t.slots = []) ∨ t.plan = .full ∨
    (t.plan = .unchanged ∧ (∀ step ∈ t.ordering, t.isDirty step.node = false) ∧
      ∀ x ∈ t.slots.map Slot.id, x ∈ t.ordering.map Elimination.node) ∨
    ∃ e, t.plan = .keep e ∧ (t.ordering.take e).length = e ∧
      ∀ step ∈ t.ordering.take e, step.node ∈ t.slots.map Slot.id ∧ t.isDirty step.node = false := by
  obtain ⟨plan, hplan⟩ : ∃ plan, t.plan = plan := ⟨_, rfl⟩
  have hkeep : ∀ e, (∀ step ∈ t.ordering.take e, t.isDirty step.node = false) → t.keepPlan e = plan →
      plan = .full ∨ ∃ e, plan = .keep e ∧ (t.ordering.take e).length = e ∧
        ∀ step ∈ t.ordering.take e, step.node ∈ t.slots.map Slot.id ∧ t.isDirty step.node = false := by
    intro e hclean heq
    rcases keepPlan_cases (t := t) e with hfull | ⟨hplan, hlength, hthere⟩
    · exact .inl (heq.symm.trans hfull)
    · exact .inr ⟨e, heq.symm.trans hplan, hlength, fun step hstep => ⟨hthere step hstep, hclean step hstep⟩⟩
  have hbefore : ∀ n, ∀ step ∈ t.ordering.take ((t.ordering.findIdx? fun step => t.isDirty step.node).getD n),
      t.isDirty step.node = false := fun n step hstep =>
    findIdx?_before (p := fun step : Elimination => t.isDirty step.node) hstep
  rw [hplan]
  unfold DynamicTreewidth.plan at hplan
  split at hplan
  · rename_i hnone
    exact .inl ⟨hplan.symm, List.length_eq_zero_iff.mp hnone⟩
  · split at hplan
    · exact .inr (.inl hplan.symm)
    · dsimp only at hplan
      split at hplan
      · rename_i hcond
        obtain ⟨hlate, hold⟩ := hcond
        have hclean : ∀ step ∈ t.ordering, t.isDirty step.node = false := fun step hstep =>
          hbefore t.ordering.length step (by rwa [List.take_of_length_le hlate])
        split at hplan
        · rcases hkeep _ (fun step hstep => hclean step (List.mem_of_mem_take hstep)) hplan with hfull | hkept
          · exact .inr (.inl hfull)
          · exact .inr (.inr (.inr hkept))
        · refine .inr (.inr (.inl ⟨hplan.symm, hclean, fun x hx => ?_⟩))
          obtain ⟨slot, hslot, rfl⟩ := List.mem_map.mp hx
          exact orderingPosition_isNone.mp (Bool.not_eq_true _ ▸ List.any_eq_false.mp hold slot hslot)
      · rcases hkeep _ (hbefore _) hplan with hfull | hkept
        · exact .inr (.inl hfull)
        · exact .inr (.inr (.inr hkept))

end DynamicTreewidth

/-! ### Replays -/

section Replay

open DynamicTreewidth

variable {work : List Slot} {eliminated : List Nat} {G : SimpleGraph Nat}

/-- A node is not among its own neighbors, so it does not matter whether it counts as eliminated. -/
theorem Lists.remaining_self (h : Lists work G.Adj) {v : Slot} (hv : v ∈ work) :
    v.remaining work (v.id :: eliminated) = v.remaining work eliminated := by
  refine List.filter_congr fun y hy => ?_
  have hne : y ≠ v.id := ((h.mem v hv y).mp hy).ne'
  rw [Bool.eq_iff_iff, remains_iff, remains_iff, List.mem_cons, not_or]
  tauto

theorem remainingCount_eq : remainingCount work eliminated = (remainingIds work eliminated).length := by
  rw [remainingCount, ← map_id_candidates, List.length_map, List.countP_eq_length_filter]

/-- A replay of nodes that are there takes them out, in their order. By induction on the steps: what remains
    is in the lists of a graph that has, with any order of the rest, the later degrees of the whole. -/
theorem replay_laterDegrees (steps : List Elimination) : ∀ {work : List Slot} {eliminated : List Nat}
    {G : SimpleGraph Nat}, Lists work G.Adj → (steps.map Elimination.node).Nodup →
    (∀ step ∈ steps, step.node ∈ remainingIds work eliminated) → replayRoom steps work eliminated →
    let work' := (DynamicTreewidth.replay steps work eliminated).1
    let eliminated' := (DynamicTreewidth.replay steps work eliminated).2
    (∀ y, y ∈ remainingIds work' eliminated' ↔
      y ∈ remainingIds work eliminated ∧ y ∉ steps.map Elimination.node) ∧
    ∃ H : SimpleGraph Nat, Lists work' H.Adj ∧
      ∀ rest : List Nat, (∀ y ∈ rest, y ∈ remainingIds work' eliminated') →
        ∃ ds, ds.length = steps.length ∧
          laterDegrees G (steps.map Elimination.node ++ rest) = ds ++ laterDegrees H rest := by
  induction steps with
  | nil =>
      intro work eliminated G h _ _ _
      exact ⟨fun y => by simp [DynamicTreewidth.replay], G, h, fun rest _ => ⟨[], rfl, rfl⟩⟩
  | cons step steps ih =>
      intro work eliminated G h hnodup hthere hroom
      obtain ⟨hnot, hnodup⟩ := List.nodup_cons.mp hnodup
      have hstep := hthere step List.mem_cons_self
      rw [replayRoom] at hroom
      rw [DynamicTreewidth.replay]
      cases hfind : work.find? fun slot => slot.id == step.node with
      | none =>
          obtain ⟨s, hs, hid⟩ := List.mem_map.mp (mem_remainingIds.mp hstep).1
          exact absurd (List.find?_eq_none.mp hfind s hs) (by simp [hid])
      | some v =>
          have hv := List.mem_of_find?_eq_some hfind
          have hid : v.id = step.node := by simpa using List.find?_some hfind
          rw [hfind] at hroom
          simp only [List.map_cons, ← hid, h.remaining_self hv, Bool.and_eq_true] at hstep hroom hnot ⊢
          obtain ⟨hfill, hroom⟩ := hroom
          let nbrs := v.remaining work eliminated
          have hlater : LaterThan work eliminated v.id (remainingIds work (v.id :: eliminated)) := fun y => by
            rw [remainingIds_cons h.ids]
            exact (h.ids.filter _).mem_erase_iff
          have hsame : remainingIds (fillWork work nbrs) (v.id :: eliminated) =
              remainingIds work (v.id :: eliminated) := remainingIds_congr (map_id_fillWork nbrs work)
          have hthere' : ∀ s ∈ steps, s.node ∈ remainingIds work (v.id :: eliminated) := fun s hs =>
            (hlater s.node).mpr ⟨fun heq => hnot (heq ▸ List.mem_map_of_mem hs),
              hthere s (List.mem_cons_of_mem step hs)⟩
          obtain ⟨hremain, H, hH, hrest⟩ := ih (h.eliminate hv hlater hfill) hnodup (hsame ▸ hthere') hroom
          rw [hsame] at hremain
          refine ⟨fun y => ?_, H, hH, fun rest hmem => ?_⟩
          · rw [hremain, hlater, List.mem_cons, not_or]
            tauto
          · obtain ⟨ds, hlength, heq⟩ := hrest rest hmem
            have hsub : ∀ y ∈ steps.map Elimination.node ++ rest,
                y ∈ remainingIds work (v.id :: eliminated) := by
              intro y hy
              rcases List.mem_append.mp hy with hy | hy
              · obtain ⟨s, hs, rfl⟩ := List.mem_map.mp hy
                exact hthere' s hs
              · exact ((hremain y).mp (hmem y hy)).1
            obtain ⟨d, hd⟩ : ∃ d, laterDegrees G (v.id :: (steps.map Elimination.node ++ rest)) =
                d :: laterDegrees (fillAt G v.id) (steps.map Elimination.node ++ rest) := ⟨_, rfl⟩
            refine ⟨d :: ds, by rw [List.length_cons, hlength, List.length_cons], ?_⟩
            rw [List.cons_append, hd, List.cons_append, ← heq, laterDegrees_fillAmong_of_subset hsub]

end Replay

/-! ### The ordering -/

/-- The cached ordering is one of the nodes, each once, with their later degrees; nodes that are gone may
    still be in it. -/
structure Ordered (t : DynamicTreewidth) (G : SimpleGraph Nat) : Prop where
  nodup : (t.ordering.map Elimination.node).Nodup
  covers : ∀ x ∈ t.slots.map Slot.id, x ∈ t.ordering.map Elimination.node
  widths : t.ordering.map Elimination.stepWidth = laterDegrees G (t.ordering.map Elimination.node)
  bound : t.bound = maxWidth t.ordering

section Steps

open DynamicTreewidth

variable {t s : DynamicTreewidth} {g h : EditedGraph}

/-- The elimination of everything gives an ordering. -/
theorem Follows.ordered_full (hfollows : Follows s.slots h) (hroom : eliminateRoom s.slots.length s.slots []) :
    Ordered s.fullRecompute h.graph := by
  have hall : remainingIds s.slots [] = s.slots.map Slot.id := List.filter_eq_self.mpr fun _ _ => rfl
  have hlength : (remainingIds s.slots []).length ≤ s.slots.length := by rw [hall, List.length_map]
  have hperm := eliminateMin_perm _ _ _ hfollows.lists.ids hlength
  rw [hall] at hperm
  exact ⟨hperm.nodup_iff.mpr hfollows.lists.ids, fun x hx => hperm.mem_iff.mpr hx,
    eliminateMin_laterDegrees _ hfollows.lists hlength hroom, rfl⟩

/-- An ordering in which nothing is flagged is one of the graph as it is now. -/
theorem Edited.ordered_unchanged (hedit : Edited t s g h) (hold : Ordered t g.graph)
    (hfollows : Follows t.slots g) (hclean : ∀ step ∈ s.ordering, s.isDirty step.node = false)
    (hcovers : ∀ x ∈ s.slots.map Slot.id, x ∈ s.ordering.map Elimination.node) :
    Ordered (s.follow .unchanged) h.graph := by
  rw [hedit.ordering] at hclean hcovers
  refine ⟨?_, fun x hx => ?_, ?_, ?_⟩
  · exact hedit.ordering ▸ hold.nodup
  · rw [follow, hedit.ordering]
    exact hcovers x hx
  · have hnodes : ∀ x ∈ t.ordering.map Elimination.node, s.isDirty x = false := by
      intro x hx
      obtain ⟨step, hstep, rfl⟩ := List.mem_map.mp hx
      exact hclean step hstep
    rw [follow, hedit.ordering, hold.widths]
    refine laterDegrees_congr fun x hx y hy => ?_
    by_cases hnow : x ∈ h.nodes
    · exact (hedit.same x hnow (hnodes x hx)).2 y
    · refine iff_of_false (fun hxy => hnow (hedit.follows.ends x y hxy)) fun hxy => ?_
      have hflag := hedit.gone x (hfollows.ends x y hxy) hnow y hxy
      rw [hnodes y hy] at hflag
      cases hflag
  · rw [follow, hedit.ordering, hedit.bound]
    exact hold.bound

/-- The degrees recorded for kept steps are those in the graph as it is now: their nodes have the edges they
    had, and the same neighbors come later. -/
theorem Edited.widths_take (hedit : Edited t s g h) (hold : Ordered t g.graph) (hfollows : Follows t.slots g)
    {e : Nat} (hlength : (t.ordering.take e).length = e)
    (hkept : ∀ x ∈ (t.ordering.take e).map Elimination.node, x ∈ h.nodes ∧ s.isDirty x = false)
    {rest : List Nat} (hnodup : ((t.ordering.take e).map Elimination.node ++ rest).Nodup)
    (hrest : ∀ y, y ∈ rest ↔ y ∈ h.nodes ∧ y ∉ (t.ordering.take e).map Elimination.node) :
    (t.ordering.take e).map Elimination.stepWidth =
      (laterDegrees h.graph ((t.ordering.take e).map Elimination.node ++ rest)).take e := by
  let kept := (t.ordering.take e).map Elimination.node
  let dropped := (t.ordering.drop e).map Elimination.node
  have hkeptLength : kept.length = e := by rw [List.length_map, hlength]
  have hsplit : kept ++ dropped = t.ordering.map Elimination.node := by
    rw [← List.map_append, List.take_append_drop]
  have hsame : ∀ x ∈ kept, ∀ y, h.graph.Adj x y ↔ g.graph.Adj x y := fun x hx =>
    (hedit.same x (hkept x hx).1 (hkept x hx).2).2
  have hlater : ∀ x ∈ kept, ∀ y, g.graph.Adj x y → (y ∈ dropped ↔ y ∈ rest) := by
    intro x hx y hxy
    have hy : y ∈ h.nodes := hedit.follows.ends y x ((hsame x hx y).mpr hxy).symm
    have hyOrdering := hold.covers y ((hfollows.nodes y).mpr (hfollows.ends y x hxy.symm))
    have hnodup := hold.nodup
    rw [← hsplit] at hyOrdering hnodup
    rw [hrest, and_iff_right hy]
    constructor
    · exact fun hd hk => List.disjoint_of_nodup_append hnodup hk hd
    · exact fun hk => (List.mem_append.mp hyOrdering).resolve_left hk
  calc (t.ordering.take e).map Elimination.stepWidth
      = (laterDegrees g.graph (kept ++ dropped)).take kept.length := by
        rw [hkeptLength, hsplit, ← hold.widths, List.map_take]
    _ = (laterDegrees h.graph (kept ++ rest)).take kept.length :=
        laterDegrees_take kept (hsplit.symm ▸ hold.nodup) hnodup hsame hlater
    _ = _ := by rw [hkeptLength]

/-- A kept part and the elimination of the rest give an ordering. -/
theorem Edited.ordered_keep (hedit : Edited t s g h) (hold : Ordered t g.graph) (hfollows : Follows t.slots g)
    {e : Nat} (hlength : (s.ordering.take e).length = e)
    (hkept : ∀ step ∈ s.ordering.take e, step.node ∈ s.slots.map Slot.id ∧ s.isDirty step.node = false)
    (hreplay : replayRoom (s.ordering.take e) s.slots [])
    (hroom : eliminateRoom (remainingCount (s.replayed e).1 (s.replayed e).2) (s.replayed e).1
      (s.replayed e).2) : Ordered (s.follow (.keep e)) h.graph := by
  have hlists := hedit.follows.lists
  have hall : remainingIds s.slots [] = s.slots.map Slot.id := List.filter_eq_self.mpr fun _ _ => rfl
  have hnodup : ((s.ordering.take e).map Elimination.node).Nodup := by
    rw [List.map_take, hedit.ordering]
    exact hold.nodup.sublist (List.take_sublist _ _)
  obtain ⟨hremain, H, hH, hrest⟩ := replay_laterDegrees _ hlists hnodup
    (fun step hstep => hall ▸ (hkept step hstep).1) hreplay
  rw [hall] at hremain
  have hcount : (remainingIds (s.replayed e).1 (s.replayed e).2).length ≤
      remainingCount (s.replayed e).1 (s.replayed e).2 := remainingCount_eq.ge
  have hperm : ((s.suffix e).map Elimination.node).Perm (remainingIds (s.replayed e).1 (s.replayed e).2) :=
    eliminateMin_perm _ _ _ hH.ids hcount
  have hsuffix : (s.suffix e).map Elimination.stepWidth =
      laterDegrees H ((s.suffix e).map Elimination.node) := eliminateMin_laterDegrees _ hH hcount hroom
  have hmem : ∀ y, y ∈ (s.suffix e).map Elimination.node ↔
      y ∈ s.slots.map Slot.id ∧ y ∉ (s.ordering.take e).map Elimination.node := fun y =>
    hperm.mem_iff.trans (hremain y)
  obtain ⟨ds, hds, hwhole⟩ := hrest _ fun y hy => hperm.mem_iff.mp hy
  have happend : ((s.ordering.take e).map Elimination.node ++ (s.suffix e).map Elimination.node).Nodup :=
    hnodup.append (hperm.nodup_iff.mpr (hH.ids.filter _)) fun y hy hy' => ((hmem y).mp hy').2 hy
  have hwidths : (s.ordering.take e).map Elimination.stepWidth = ds := by
    have htake := @Edited.widths_take _ _ _ _ hedit hold hfollows e (hedit.ordering ▸ hlength)
    rw [← hedit.ordering] at htake
    rw [htake ?_ happend ?_, hwhole, List.take_left' (hds.trans hlength)]
    · intro x hx
      obtain ⟨step, hstep, rfl⟩ := List.mem_map.mp hx
      exact ⟨(hedit.follows.nodes _).mp (hkept step hstep).1, (hkept step hstep).2⟩
    · exact fun y => (hmem y).trans (and_congr_left fun _ => hedit.follows.nodes y)
  rw [follow]
  refine ⟨?_, fun x hx => ?_, ?_, rfl⟩
  · rw [List.map_append]
    exact happend
  · rw [List.map_append, List.mem_append, or_iff_not_imp_left]
    exact fun hnot => (hmem x).mpr ⟨hx, hnot⟩
  · rw [List.map_append, List.map_append, hwidths, hsuffix, hwhole]

/-- An update keeps an ordering, as long as no fill edge is dropped. -/
theorem Edited.ordered (hedit : Edited t s g h) (hold : Ordered t g.graph) (hfollows : Follows t.slots g)
    (hfill : s.keepsFill = true) : Ordered s.maybeUpdate h.graph := by
  rw [maybeUpdate_eq]
  unfold keepsFill at hfill
  rcases plan_cases s with ⟨hplan, hnone⟩ | hplan | ⟨hplan, hclean, hcovers⟩ | ⟨e, hplan, hlength, hkept⟩ <;>
    rw [hplan] at hfill ⊢
  · refine ⟨List.nodup_nil, fun x hx => ?_, rfl, rfl⟩
    rw [slots_follow, hnone] at hx
    exact absurd hx List.not_mem_nil
  · exact hedit.follows.ordered_full hfill
  · exact hedit.ordered_unchanged hold hfollows hclean hcovers
  · obtain ⟨hreplay, hroom⟩ := Bool.and_eq_true_iff.mp hfill
    exact hedit.ordered_keep hold hfollows hlength hkept hreplay hroom

end Steps

/-! ### Runs -/

/-- The update after an edit, or the recomputation, drops no fill edge. -/
def TrackerOp.keepsFill (t : DynamicTreewidth) : TrackerOp → Bool
  | .fullRecompute => eliminateRoom t.slots.length t.slots []
  | op => (op.edited t).all DynamicTreewidth.keepsFill

theorem TrackerOp.keepsFill_of_edited {t s : DynamicTreewidth} {op : TrackerOp} (hs : op.edited t = some s) :
    op.keepsFill t = s.keepsFill := by
  cases op with
  | fullRecompute => cases hs
  | _ => simp [keepsFill, hs]

/-- Added edges join nodes that are there, and no fill edge is dropped. -/
def TrackerOp.sound (t : DynamicTreewidth) (op : TrackerOp) : Bool := op.endsPresent t && op.keepsFill t

/-- An edit keeps the lists and the ordering. -/
theorem TrackerOp.ordered_apply {t t' : DynamicTreewidth} {g : EditedGraph} {op : TrackerOp}
    (hfollows : Follows t.slots g) (hold : Ordered t g.graph) (hsound : op.sound t = true)
    (heq : op.apply t = some t') : Follows t'.slots (g.edit op) ∧ Ordered t' (g.edit op).graph := by
  obtain ⟨hends, hfill⟩ := Bool.and_eq_true_iff.mp hsound
  rcases TrackerOp.apply_cases heq with ⟨s, hs, rfl⟩ | ⟨rfl, u, hloop⟩ | ⟨rfl, rfl⟩
  · rw [TrackerOp.keepsFill_of_edited hs] at hfill
    have hedit := hfollows.edited hends hs
    refine ⟨?_, hedit.ordered hold hfollows hfill⟩
    rw [DynamicTreewidth.maybeUpdate_eq, DynamicTreewidth.slots_follow]
    exact hedit.follows
  · obtain ⟨hfollows', hgraph⟩ := hfollows.edit_loop hloop
    exact ⟨hfollows', hgraph ▸ hold⟩
  · exact ⟨hfollows, hfollows.ordered_full hfill⟩

/-- The tracker in a run. By induction on the run. -/
theorem TrackerRun.ordered {t : DynamicTreewidth} {g : EditedGraph}
    (hrun : TrackerRun (fun t op => op.sound t = true) t g) : Follows t.slots g ∧ Ordered t g.graph := by
  induction hrun with
  | new =>
      refine ⟨⟨fun x => ?_, ⟨List.nodup_nil, fun s hs => absurd hs List.not_mem_nil,
        fun s hs => absurd hs List.not_mem_nil⟩, fun x y hxy => ?_⟩,
        ⟨List.nodup_nil, fun x hx => absurd hx List.not_mem_nil, rfl, rfl⟩⟩
      · exact iff_of_false List.not_mem_nil (Finset.notMem_empty x)
      · rcases hxy.2 with hxy | hxy <;> exact absurd hxy (Finset.notMem_empty _)
  | fromTypeGraph hload hsound =>
      have hfollows := Follows.load hload
      exact ⟨hfollows, hfollows.ordered_full (Bool.and_eq_true_iff.mp hsound).2⟩
  | edit op _ hsound heq ih => exact TrackerOp.ordered_apply ih.1 ih.2 hsound heq

end SotFs
