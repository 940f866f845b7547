/-
Module: SotFs.Proofs.TrackerFresh
Layer: Proofs
Purpose: The bound of the tracker against a full recomputation. An update that keeps part of the ordering gives
  the recomputed bound if the nodes of that part are still the ones that the elimination of minimal degree
  takes, in their order. A removed edge can change that, and then the kept part is a worse start than a fresh
  one.
Trusted boundary: none
Main exports: greedyReplay, DynamicTreewidth.keepsGreedy, TrackerOp.fresh, eliminateMin_of_greedyReplay,
  tracker_fresh
-/
import SotFs.Proofs.TrackerBounds

namespace SotFs

open Foundation

/-- The nodes of an ordering that are there are those that the elimination of minimal degree takes. -/
def greedyReplay : List Elimination → List Slot → List Nat → Bool
  | [], _, _ => true
  | step :: steps, work, eliminated =>
      match work.find? fun slot => slot.id == step.node with
      | none => greedyReplay steps work eliminated
      | some v =>
          (((work.filter fun slot => !eliminated.contains slot.id).argmin
            fun slot => (slot.remaining work eliminated).length).any fun u => u.id == step.node) &&
            greedyReplay steps (fillWork work (v.remaining work (step.node :: eliminated)))
              (step.node :: eliminated)

namespace DynamicTreewidth

/-- The part of the ordering that an update keeps is how a fresh elimination starts. -/
def keepsGreedy (t : DynamicTreewidth) : Bool :=
  match t.plan with
  | .empty => true
  | .full => true
  | .unchanged => greedyReplay t.ordering t.slots []
  | .keep earliestDirty => greedyReplay (t.ordering.take earliestDirty) t.slots []

/-- A fresh elimination drops no fill edge. -/
def freshRoom (t : DynamicTreewidth) : Bool := eliminateRoom t.slots.length t.slots []

end DynamicTreewidth

/-- Added edges join nodes that are there; neither the update nor a recomputation drops a fill edge; and what
    the update keeps is how the recomputation starts. -/
def TrackerOp.fresh (t : DynamicTreewidth) (op : TrackerOp) : Bool :=
  op.sound t && (op.edited t).all fun s => s.freshRoom && s.keepsGreedy

/-! ### Fresh eliminations -/

section Fresh

open DynamicTreewidth

variable {work : List Slot} {eliminated : List Nat}

/-- An elimination of minimal degree whose first picks are those of an ordering goes on as after the replay of
    that ordering. By induction on the ordering: nodes that are gone are skipped. -/
theorem eliminateMin_of_greedyReplay (steps : List Elimination) : ∀ {n : Nat} {work : List Slot}
    {eliminated : List Nat} {G : SimpleGraph Nat}, Lists work G.Adj →
    (remainingIds work eliminated).length = n → eliminateRoom n work eliminated →
    greedyReplay steps work eliminated →
    (eliminateMin n work eliminated).map Elimination.node =
      (steps.map Elimination.node).filter (fun x => decide (x ∈ work.map Slot.id)) ++
        (eliminateMin (remainingCount (DynamicTreewidth.replay steps work eliminated).1
            (DynamicTreewidth.replay steps work eliminated).2)
          (DynamicTreewidth.replay steps work eliminated).1
          (DynamicTreewidth.replay steps work eliminated).2).map Elimination.node := by
  induction steps with
  | nil =>
      intro n work eliminated G h hlength _ _
      rw [DynamicTreewidth.replay, remainingCount_eq, hlength]
      rfl
  | cons step steps ih =>
      intro n work eliminated G h hlength hroom hgreedy
      rw [greedyReplay] at hgreedy
      rw [DynamicTreewidth.replay, List.map_cons]
      cases hfind : work.find? fun slot => slot.id == step.node with
      | none =>
          have hgone : step.node ∉ work.map Slot.id := by
            intro hmem
            obtain ⟨s, hs, hid⟩ := List.mem_map.mp hmem
            exact absurd (List.find?_eq_none.mp hfind s hs) (by simp [hid])
          rw [hfind] at hgreedy
          rw [List.filter_cons_of_neg (by simpa using hgone)]
          exact ih h hlength hroom hgreedy
      | some v =>
          have hv := List.mem_of_find?_eq_some hfind
          have hid : v.id = step.node := by simpa using List.find?_some hfind
          rw [hfind] at hgreedy
          simp only [← hid, h.remaining_self hv, Bool.and_eq_true, Option.any_eq_true, beq_iff_eq] at hgreedy ⊢
          obtain ⟨⟨u, hmin, huv⟩, hgreedy⟩ := hgreedy
          obtain ⟨hu, hremains⟩ := mem_of_argmin (Option.mem_def.mpr hmin)
          obtain rfl : u = v := List.inj_on_of_nodup_map h.ids hu hv huv
          rw [List.filter_cons_of_pos (by simpa using List.mem_map_of_mem hu)]
          obtain ⟨n, rfl⟩ : ∃ m, n = m + 1 :=
            Nat.exists_eq_succ_of_ne_zero fun hzero => by
              rw [hzero, List.length_eq_zero_iff] at hlength
              rw [hlength] at hremains
              exact absurd hremains List.not_mem_nil
          rw [eliminateRoom, hmin] at hroom
          obtain ⟨hfill, hroom⟩ := Bool.and_eq_true_iff.mp hroom
          have hlater : LaterThan work eliminated u.id (remainingIds work (u.id :: eliminated)) := fun y => by
            rw [remainingIds_cons h.ids]
            exact (h.ids.filter _).mem_erase_iff
          have hids := map_id_fillWork (u.remaining work eliminated) work
          have hlength' : (remainingIds (fillWork work (u.remaining work eliminated))
              (u.id :: eliminated)).length = n := by
            rw [remainingIds_congr hids, remainingIds_cons h.ids, List.length_erase_of_mem hremains, hlength]
            rfl
          have hrest := ih (h.eliminate hu hlater hfill) hlength' hroom hgreedy
          rw [hids] at hrest
          rw [eliminateMin, hmin, List.map_cons, List.cons_append, hrest]

variable {s t : DynamicTreewidth} {g h : EditedGraph}

/-- After an update whose kept part is greedy, a fresh elimination takes the nodes of the ordering that are
    there, in its order. -/
theorem fresh_nodes (hfollows : Follows s.slots h) (hordered : Ordered s.maybeUpdate h.graph)
    (hroom : s.freshRoom = true) (hgreedy : s.keepsGreedy = true) :
    (eliminateMin s.slots.length s.slots []).map Elimination.node =
      (s.maybeUpdate.ordering.map Elimination.node).filter fun x => decide (x ∈ s.slots.map Slot.id) := by
  have hids := hfollows.lists.ids
  have hall : remainingIds s.slots [] = s.slots.map Slot.id := List.filter_eq_self.mpr fun _ _ => rfl
  have hlength : (remainingIds s.slots []).length = s.slots.length := by rw [hall, List.length_map]
  have hperm := eliminateMin_perm _ _ _ hids hlength.le
  rw [hall] at hperm
  have hnodup := hordered.nodup
  have hcovers := hordered.covers
  rw [maybeUpdate_eq] at hnodup hcovers ⊢
  rw [slots_follow] at hcovers
  unfold keepsGreedy at hgreedy
  rcases plan_cases s with ⟨hplan, hnone⟩ | hplan | ⟨hplan, _, _⟩ | ⟨e, hplan, _, hkept⟩ <;>
    rw [hplan] at hgreedy hnodup hcovers ⊢
  · rw [hnone]
    rfl
  · exact (List.filter_eq_self.mpr fun x hx => decide_eq_true (hperm.mem_iff.mp hx)).symm
  · -- the whole ordering is replayed, and nothing is left
    have hfresh := eliminateMin_of_greedyReplay _ hfollows.lists hlength hroom hgreedy
    have hsame : ((s.ordering.map Elimination.node).filter
        fun x => decide (x ∈ s.slots.map Slot.id)).Perm (s.slots.map Slot.id) := by
      refine (List.perm_ext_iff_of_nodup (hnodup.filter _) hids).mpr fun x => ?_
      rw [List.mem_filter, decide_eq_true_eq]
      exact ⟨And.right, fun hx => ⟨hcovers x hx, hx⟩⟩
    have hnil := congrArg List.length hfresh
    rw [List.length_append, hperm.length_eq, hsame.length_eq, left_eq_add, List.length_eq_zero_iff] at hnil
    rw [hfresh, hnil, List.append_nil]
    rfl
  · have hfresh := eliminateMin_of_greedyReplay _ hfollows.lists hlength hroom hgreedy
    have hself : ((s.ordering.take e).map Elimination.node).filter
        (fun x => decide (x ∈ s.slots.map Slot.id)) = (s.ordering.take e).map Elimination.node := by
      refine List.filter_eq_self.mpr fun x hx => decide_eq_true ?_
      obtain ⟨step, hstep, rfl⟩ := List.mem_map.mp hx
      exact (hkept step hstep).1
    rw [hself] at hfresh
    have hwhole : (s.follow (.keep e)).ordering.map Elimination.node =
        (eliminateMin s.slots.length s.slots []).map Elimination.node :=
      (List.map_append).trans hfresh.symm
    rw [hwhole]
    exact (List.filter_eq_self.mpr fun x hx => decide_eq_true (hperm.mem_iff.mp hx)).symm

/-- Positive widths decide the largest. -/
theorem maxWidth_eq {steps steps' : List Elimination} (heq : ∀ d ≠ 0,
    d ∈ steps.map Elimination.stepWidth ↔ d ∈ steps'.map Elimination.stepWidth) :
    maxWidth steps = maxWidth steps' := by
  have hle : ∀ {steps steps' : List Elimination}, (∀ d ≠ 0,
      d ∈ steps.map Elimination.stepWidth → d ∈ steps'.map Elimination.stepWidth) →
      maxWidth steps ≤ maxWidth steps' := by
    intro steps steps' hsub
    refine maxWidth_le_iff.mpr fun d hd => ?_
    by_cases hzero : d = 0
    · exact hzero ▸ Nat.zero_le _
    · exact maxWidth_le_iff.mp le_rfl d (hsub d hzero hd)
  exact le_antisymm (hle fun d hd => (heq d hd).mp) (hle fun d hd => (heq d hd).mpr)

/-- The bound after such an update is the recomputed one: nodes that are gone have no neighbors. -/
theorem fresh_bound (hfollows : Follows s.slots h) (hordered : Ordered s.maybeUpdate h.graph)
    (hroom : s.freshRoom = true) (hgreedy : s.keepsGreedy = true) :
    s.maybeUpdate.bound = s.fullRecompute.bound := by
  have hfresh := hfollows.ordered_full hroom
  rw [hordered.bound, hfresh.bound]
  refine maxWidth_eq fun d hd => ?_
  rw [hordered.widths, hfresh.widths]
  have hnodes : s.fullRecompute.ordering.map Elimination.node =
      (s.maybeUpdate.ordering.map Elimination.node).filter fun x => ¬ (x ∉ s.slots.map Slot.id) :=
    (fresh_nodes hfollows hordered hroom hgreedy).trans (List.filter_congr fun x _ => by simp)
  rw [hnodes]
  refine (laterDegrees_filter hd _ fun x _ hgone y _ hxy => ?_).symm
  exact hgone ((hfollows.nodes x).mpr (hfollows.ends x y hxy))

end Fresh

/-- The bound is fresh: in every run in which added edges join nodes that are there, no elimination drops a
    fill edge and each kept part is how a fresh elimination starts, the bound is that of full_recompute. -/
theorem tracker_fresh {t : DynamicTreewidth} {g : EditedGraph}
    (hrun : TrackerRun (fun t op => op.fresh t = true) t g) : t.bound = t.fullRecompute.bound := by
  have hsound : ∀ t op, TrackerOp.fresh t op = true → TrackerOp.sound t op = true := fun t op hfresh =>
    (Bool.and_eq_true_iff.mp hfresh).1
  induction hrun with
  | new => rfl
  | fromTypeGraph _ _ => rfl
  | edit op hrun hfresh heq ih =>
      obtain ⟨hfollows, hold⟩ := (hrun.mono hsound).ordered
      obtain ⟨hends, hfill⟩ := Bool.and_eq_true_iff.mp (hsound _ _ hfresh)
      rcases TrackerOp.apply_cases heq with ⟨s, hs, rfl⟩ | ⟨rfl, _⟩ | ⟨_, rfl⟩
      · have hupdate := (Bool.and_eq_true_iff.mp hfresh).2
        rw [hs, Option.all_some, Bool.and_eq_true] at hupdate
        rw [TrackerOp.keepsFill_of_edited hs] at hfill
        have hedit := hfollows.edited hends hs
        have hbound := fresh_bound hedit.follows (hedit.ordered hold hfollows hfill) hupdate.1 hupdate.2
        rw [hbound, DynamicTreewidth.fullRecompute, DynamicTreewidth.fullRecompute,
          DynamicTreewidth.maybeUpdate_eq, DynamicTreewidth.slots_follow]
      · exact ih
      · rfl

/-- A path of three nodes, and one of them removed. -/
theorem tracker_fresh_path :
    let ops : List TrackerOp := [.addNode 0, .addNode 1, .addNode 2, .addEdge 0 1, .addEdge 1 2, .removeNode 0]
    ∃ t, TrackerOp.calls TrackerOp.fresh .new ops = some t ∧ t.bound = t.fullRecompute.bound := by
  intro ops
  obtain ⟨t, hcalls⟩ := Option.isSome_iff_exists.mp
    (by decide : (TrackerOp.calls TrackerOp.fresh .new ops).isSome = true)
  exact ⟨t, hcalls, tracker_fresh (.calls ops .new hcalls)⟩

/-- A square loses a corner: what is kept starts with the opposite corner and its two neighbors, while a fresh
    elimination of the path that is left starts at an end. -/
theorem tracker_not_fresh : ∃ t, TrackerOp.calls TrackerOp.sound .new
    [.addNode 0, .addNode 1, .addNode 2, .addNode 3, .addNode 4, .addNode 5, .addNode 6, .addEdge 1 3,
      .addEdge 5 0, .addEdge 5 3, .addEdge 0 1, .removeNode 3] = some t ∧
    t.bound = 2 ∧ t.fullRecompute.bound = 1 := by
  have hend : (TrackerOp.calls TrackerOp.sound .new
      [.addNode 0, .addNode 1, .addNode 2, .addNode 3, .addNode 4, .addNode 5, .addNode 6, .addEdge 1 3,
        .addEdge 5 0, .addEdge 5 3, .addEdge 0 1, .removeNode 3]).map
      (fun t => (t.bound, t.fullRecompute.bound)) = some (2, 1) := by decide +kernel
  obtain ⟨t, hcalls, heq⟩ := Option.map_eq_some_iff.mp hend
  obtain ⟨hbound, hfresh⟩ := Prod.mk.inj heq
  exact ⟨t, hcalls, hbound, hfresh⟩

end SotFs
