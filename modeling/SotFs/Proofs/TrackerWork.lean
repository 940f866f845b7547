/-
Module: SotFs.Proofs.TrackerWork
Layer: Proofs
Purpose: Elimination on the tracker's bounded lists. A work list holds the neighbors of its node, those that
  were eliminated included, and drops what does not fit; as long as there is room nothing is dropped and the
  lists are those of the graph with the fill edges so far. The degree of a step is then the number of later
  neighbors of its node. There is room if no node has more neighbors than fit, in the graph with all fill
  edges.
Trusted boundary: none
Main exports: fillRoom, eliminateRoom, replayRoom, Lists, Narrow, Lists.fillWork, Lists.fillRoom_of_narrow,
  eliminateMin_laterDegrees, Bounded.stepWidth_le
-/
import SotFs.Core.DynamicTreewidth
import SotFs.Foundation.EliminationOrder

namespace SotFs

open Foundation

/-! ### Room for the fill edges -/

/-- Connecting two nodes drops nothing: they are neighbors already, or both their lists have a free place. -/
def connectRoom (work : List Slot) (a b : Nat) : Bool :=
  (work.any fun slot => slot.id == a && slot.adj.contains b) ||
    work.all fun slot => !(slot.id == a || slot.id == b) || decide (slot.adj.length < MAX_DEGREE)

/-- Connecting a node to each of a list drops nothing. -/
def connectAllRoom (a : Nat) : List Slot → List Nat → Bool
  | _, [] => true
  | work, b :: rest => connectRoom work a b && connectAllRoom a (connectFill work a b) rest

/-- Connecting all pairs of a list drops nothing. -/
def fillRoom : List Slot → List Nat → Bool
  | _, [] => true
  | work, a :: rest =>
      connectAllRoom a work rest && fillRoom (rest.foldl (fun work b => connectFill work a b) work) rest

/-- The elimination of minimal degree drops no fill edge. -/
def eliminateRoom : Nat → List Slot → List Nat → Bool
  | 0, _, _ => true
  | n + 1, work, eliminated =>
      match (work.filter fun slot => !eliminated.contains slot.id).argmin
          fun slot => (slot.remaining work eliminated).length with
      | none => true
      | some v =>
          fillRoom work (v.remaining work eliminated) &&
            eliminateRoom n (fillWork work (v.remaining work eliminated)) (v.id :: eliminated)

namespace DynamicTreewidth

/-- The replay of an ordering drops no fill edge. -/
def replayRoom : List Elimination → List Slot → List Nat → Bool
  | [], _, _ => true
  | step :: steps, work, eliminated =>
      match work.find? fun slot => slot.id == step.node with
      | none => replayRoom steps work eliminated
      | some v =>
          fillRoom work (v.remaining work (step.node :: eliminated)) &&
            replayRoom steps (fillWork work (v.remaining work (step.node :: eliminated)))
              (step.node :: eliminated)

end DynamicTreewidth

/-! ### Lists and relations -/

/-- The lists of the nodes are those of the relation, each neighbor once. -/
structure Lists (work : List Slot) (E : Nat → Nat → Prop) : Prop where
  ids : (work.map Slot.id).Nodup
  nodup : ∀ s ∈ work, s.adj.Nodup
  mem : ∀ s ∈ work, ∀ y, y ∈ s.adj ↔ E s.id y

/-- No node has more neighbors than a list holds. -/
def Narrow (E : Nat → Nat → Prop) : Prop := ∀ x (N : Finset Nat), (∀ y ∈ N, E x y) → N.card ≤ MAX_DEGREE

section Fill

variable {work : List Slot} {E F : Nat → Nat → Prop} {a b : Nat}

theorem Lists.congr {E' : Nat → Nat → Prop} (h : Lists work E) (heq : ∀ x y, E x y ↔ E' x y) : Lists work E' :=
  ⟨h.ids, h.nodup, fun s hs y => (h.mem s hs y).trans (heq s.id y)⟩

@[simp]
theorem Slot.pushFill_id (s : Slot) (y : Nat) : (s.pushFill y).id = s.id := by
  unfold Slot.pushFill
  split <;> rfl

theorem map_id_connectFill (work : List Slot) (a b : Nat) :
    (connectFill work a b).map Slot.id = work.map Slot.id := by
  unfold connectFill
  split
  · rfl
  · rw [List.map_map]
    refine List.map_congr_left fun s _ => ?_
    dsimp only [Function.comp_apply]
    split
    · exact s.pushFill_id b
    · split
      · exact s.pushFill_id a
      · rfl

theorem map_id_foldl_connectFill (rest : List Nat) : ∀ work : List Slot,
    (rest.foldl (fun work b => connectFill work a b) work).map Slot.id = work.map Slot.id := by
  induction rest with
  | nil => exact fun _ => rfl
  | cons b rest ih =>
      intro work
      rw [List.foldl_cons, ih, map_id_connectFill]

theorem map_id_fillWork (l : List Nat) : ∀ work : List Slot,
    (fillWork work l).map Slot.id = work.map Slot.id := by
  induction l with
  | nil => exact fun _ => rfl
  | cons a rest ih =>
      intro work
      rw [fillWork, ih, map_id_foldl_connectFill]

/-- A list that lacks a neighbor has room for it. -/
theorem Lists.length_lt (h : Lists work E) (hF : Narrow F) (hEF : ∀ x y, E x y → F x y) {s : Slot}
    (hs : s ∈ work) {y : Nat} (hnew : ¬ E s.id y) (hy : F s.id y) : s.adj.length < MAX_DEGREE := by
  have hmem : y ∉ s.adj := fun hin => hnew ((h.mem s hs y).mp hin)
  have hcard := hF s.id (insert y s.adj.toFinset) fun z hz => by
    rcases Finset.mem_insert.mp hz with rfl | hz
    · exact hy
    · exact hEF _ _ ((h.mem s hs z).mp (List.mem_toFinset.mp hz))
  rwa [Finset.card_insert_of_notMem fun hin => hmem (List.mem_toFinset.mp hin),
    List.toFinset_card_of_nodup (h.nodup s hs)] at hcard

/-- The first of two nodes lists the second exactly if they are neighbors. -/
theorem Lists.any_contains (h : Lists work E) (ha : a ∈ work.map Slot.id) :
    (work.any fun slot => slot.id == a && slot.adj.contains b) = true ↔ E a b := by
  simp only [List.any_eq_true, Bool.and_eq_true, beq_iff_eq, List.contains_iff_mem]
  constructor
  · rintro ⟨s, hs, rfl, hmem⟩
    exact (h.mem s hs b).mp hmem
  · obtain ⟨s, hs, rfl⟩ := List.mem_map.mp ha
    exact fun hab => ⟨s, hs, rfl, (h.mem s hs b).mpr hab⟩

theorem connectRoom_iff : connectRoom work a b = true ↔
    (work.any fun slot => slot.id == a && slot.adj.contains b) = true ∨
      ∀ slot ∈ work, slot.id = a ∨ slot.id = b → slot.adj.length < MAX_DEGREE := by
  simp only [connectRoom, Bool.or_eq_true, List.all_eq_true, Bool.not_eq_true', Bool.or_eq_false_iff,
    beq_eq_false_iff_ne, decide_eq_true_eq]
  refine or_congr_right (forall₂_congr fun slot _ => ?_)
  tauto

/-- Two nodes are connected. -/
theorem Lists.connectFill (h : Lists work E) (hsymm : ∀ x y, E x y → E y x) (hroom : connectRoom work a b)
    (hab : a ≠ b) (ha : a ∈ work.map Slot.id) :
    Lists (connectFill work a b) fun x y => E x y ∨ (x = a ∧ y = b) ∨ (x = b ∧ y = a) := by
  by_cases hedge : E a b
  · rw [SotFs.connectFill, if_pos ((h.any_contains ha).mpr hedge)]
    refine h.congr fun x y => ⟨.inl, ?_⟩
    rintro (hxy | ⟨rfl, rfl⟩ | ⟨rfl, rfl⟩)
    · exact hxy
    · exact hedge
    · exact hsymm _ _ hedge
  · have hany := (h.any_contains ha).not.mpr hedge
    have hba : ¬ E b a := fun hba => hedge (hsymm _ _ hba)
    have hpush : ∀ {s : Slot} {y : Nat}, s ∈ work → s.id = a ∨ s.id = b →
        s.pushFill y = { s with adj := s.adj ++ [y] } := fun hs hend =>
      if_pos ((connectRoom_iff.mp hroom).resolve_left hany _ hs hend)
    refine ⟨by rw [map_id_connectFill]; exact h.ids, ?_, ?_⟩ <;>
      rw [SotFs.connectFill, if_neg hany] <;> intro t ht <;> obtain ⟨s, hs, rfl⟩ := List.mem_map.mp ht
    · split
      · rename_i hsa
        rw [hpush hs (.inl hsa)]
        subst hsa
        rw [← List.concat_eq_append]
        exact (h.nodup s hs).concat fun hin => hedge ((h.mem s hs b).mp hin)
      · split
        · rename_i _ hsb
          rw [hpush hs (.inr hsb)]
          subst hsb
          rw [← List.concat_eq_append]
          exact (h.nodup s hs).concat fun hin => hba ((h.mem s hs a).mp hin)
        · exact h.nodup s hs
    · intro y
      split
      · rename_i hsa
        rw [hpush hs (.inl hsa)]
        subst hsa
        rw [List.mem_append, List.mem_singleton, h.mem s hs y]
        simp [hab]
      · rename_i hsa
        split
        · rename_i hsb
          rw [hpush hs (.inr hsb)]
          subst hsb
          rw [List.mem_append, List.mem_singleton, h.mem s hs y]
          simp [hab.symm]
        · rename_i hsb
          rw [h.mem s hs y]
          simp [hsa, hsb]

/-- One node is connected to each of a list. -/
theorem Lists.foldl_connectFill (rest : List Nat) : ∀ {work : List Slot} {E : Nat → Nat → Prop},
    Lists work E → (∀ x y, E x y → E y x) → connectAllRoom a work rest → a ∈ work.map Slot.id → a ∉ rest →
    Lists (rest.foldl (fun work b => SotFs.connectFill work a b) work)
      fun x y => E x y ∨ (x = a ∧ y ∈ rest) ∨ (y = a ∧ x ∈ rest) := by
  induction rest with
  | nil =>
      intro work E h _ _ _ _
      exact h.congr fun x y => by simp
  | cons b rest ih =>
      intro work E h hsymm hroom ha hnot
      obtain ⟨hab, hnot⟩ := not_or.mp (mt List.mem_cons.mpr hnot)
      obtain ⟨hconnect, hrest⟩ := Bool.and_eq_true_iff.mp hroom
      have hstep := h.connectFill hsymm hconnect hab ha
      rw [List.foldl_cons]
      refine (ih hstep ?_ hrest ?_ hnot).congr fun x y => ?_
      · rintro x y (hxy | ⟨rfl, rfl⟩ | ⟨rfl, rfl⟩)
        · exact .inl (hsymm x y hxy)
        · exact .inr (.inr ⟨rfl, rfl⟩)
        · exact .inr (.inl ⟨rfl, rfl⟩)
      · rwa [map_id_connectFill]
      · rw [List.mem_cons, List.mem_cons]
        tauto

/-- Any two nodes of a list are connected. -/
theorem Lists.fillWork (l : List Nat) : ∀ {work : List Slot} {E : Nat → Nat → Prop},
    Lists work E → (∀ x y, E x y → E y x) → fillRoom work l → (∀ a ∈ l, a ∈ work.map Slot.id) → l.Nodup →
    Lists (SotFs.fillWork work l) fun x y => E x y ∨ (x ≠ y ∧ x ∈ l ∧ y ∈ l) := by
  induction l with
  | nil =>
      intro work E h _ _ _ _
      exact h.congr fun x y => by simp
  | cons a rest ih =>
      intro work E h hsymm hroom hids hnodup
      obtain ⟨hnot, hnodup⟩ := List.nodup_cons.mp hnodup
      obtain ⟨hall, hrest⟩ := Bool.and_eq_true_iff.mp hroom
      have hne : ∀ {b}, b ∈ rest → a ≠ b := fun hb heq => hnot (heq ▸ hb)
      have hstep := h.foldl_connectFill rest hsymm hall (hids a List.mem_cons_self) hnot
      rw [SotFs.fillWork]
      refine (ih hstep ?_ hrest ?_ hnodup).congr fun x y => ?_
      · rintro x y (hxy | ⟨rfl, hy⟩ | ⟨rfl, hx⟩)
        · exact .inl (hsymm x y hxy)
        · exact .inr (.inr ⟨rfl, hy⟩)
        · exact .inr (.inl ⟨rfl, hx⟩)
      · intro b hb
        rw [map_id_foldl_connectFill]
        exact hids b (List.mem_cons_of_mem a hb)
      · rw [List.mem_cons, List.mem_cons]
        constructor
        · rintro ((hxy | ⟨rfl, hy⟩ | ⟨rfl, hx⟩) | ⟨hxy, hx, hy⟩)
          · exact .inl hxy
          · exact .inr ⟨hne hy, .inl rfl, .inr hy⟩
          · exact .inr ⟨(hne hx).symm, .inr hx, .inl rfl⟩
          · exact .inr ⟨hxy, .inr hx, .inr hy⟩
        · rintro (hxy | ⟨hxy, rfl | hx, rfl | hy⟩)
          · exact .inl (.inl hxy)
          · exact absurd rfl hxy
          · exact .inl (.inr (.inl ⟨rfl, hy⟩))
          · exact .inl (.inr (.inr ⟨rfl, hx⟩))
          · exact .inr ⟨hxy, hx, hy⟩

/-! There is room in a graph without wide nodes. -/

theorem Lists.connectRoom_of_narrow (h : Lists work E) (hsymm : ∀ x y, E x y → E y x) (hF : Narrow F)
    (hEF : ∀ x y, E x y → F x y) (ha : a ∈ work.map Slot.id) (hFab : F a b) (hFba : F b a) :
    connectRoom work a b := by
  by_cases hedge : E a b
  · exact connectRoom_iff.mpr (.inl ((h.any_contains ha).mpr hedge))
  · refine connectRoom_iff.mpr (.inr ?_)
    rintro s hs (rfl | rfl)
    · exact h.length_lt hF hEF hs hedge hFab
    · exact h.length_lt hF hEF hs (fun hba => hedge (hsymm _ _ hba)) hFba

theorem Lists.connectAllRoom_of_narrow (hF : Narrow F) (rest : List Nat) : ∀ {work : List Slot}
    {E : Nat → Nat → Prop}, Lists work E → (∀ x y, E x y → E y x) → (∀ x y, E x y → F x y) →
    a ∈ work.map Slot.id → a ∉ rest → (∀ b ∈ rest, F a b ∧ F b a) → connectAllRoom a work rest := by
  induction rest with
  | nil => exact fun _ _ _ _ _ _ => rfl
  | cons b rest ih =>
      intro work E h hsymm hEF ha hnot hrest
      obtain ⟨hab, hnot⟩ := not_or.mp (mt List.mem_cons.mpr hnot)
      obtain ⟨hFab, hFba⟩ := hrest b List.mem_cons_self
      have hroom := h.connectRoom_of_narrow hsymm hF hEF ha hFab hFba
      refine Bool.and_eq_true_iff.mpr ⟨hroom, ih (h.connectFill hsymm hroom hab ha) ?_ ?_ ?_ hnot
        fun c hc => hrest c (List.mem_cons_of_mem b hc)⟩
      · rintro x y (hxy | ⟨rfl, rfl⟩ | ⟨rfl, rfl⟩)
        · exact .inl (hsymm x y hxy)
        · exact .inr (.inr ⟨rfl, rfl⟩)
        · exact .inr (.inl ⟨rfl, rfl⟩)
      · rintro x y (hxy | ⟨rfl, rfl⟩ | ⟨rfl, rfl⟩)
        · exact hEF x y hxy
        · exact hFab
        · exact hFba
      · rwa [map_id_connectFill]

/-- The fill of a clique of a graph without wide nodes has room. -/
theorem Lists.fillRoom_of_narrow (hF : Narrow F) (l : List Nat) : ∀ {work : List Slot}
    {E : Nat → Nat → Prop}, Lists work E → (∀ x y, E x y → E y x) → (∀ x y, E x y → F x y) →
    (∀ a ∈ l, a ∈ work.map Slot.id) → l.Nodup → (∀ a ∈ l, ∀ b ∈ l, a ≠ b → F a b) → fillRoom work l := by
  induction l with
  | nil => exact fun _ _ _ _ _ _ => rfl
  | cons a rest ih =>
      intro work E h hsymm hEF hids hnodup hclique
      obtain ⟨hnot, hnodup⟩ := List.nodup_cons.mp hnodup
      have hends : ∀ b ∈ rest, F a b ∧ F b a := by
        intro b hb
        have hne : a ≠ b := fun heq => hnot (heq ▸ hb)
        exact ⟨hclique a List.mem_cons_self b (List.mem_cons_of_mem a hb) hne,
          hclique b (List.mem_cons_of_mem a hb) a List.mem_cons_self hne.symm⟩
      have ha := hids a List.mem_cons_self
      have hroom := h.connectAllRoom_of_narrow hF rest hsymm hEF ha hnot hends
      refine Bool.and_eq_true_iff.mpr ⟨hroom, ih (h.foldl_connectFill rest hsymm hroom ha hnot) ?_ ?_ ?_
        hnodup fun b hb c hc => hclique b (List.mem_cons_of_mem a hb) c (List.mem_cons_of_mem a hc)⟩
      · rintro x y (hxy | ⟨rfl, hy⟩ | ⟨rfl, hx⟩)
        · exact .inl (hsymm x y hxy)
        · exact .inr (.inr ⟨rfl, hy⟩)
        · exact .inr (.inl ⟨rfl, hx⟩)
      · rintro x y (hxy | ⟨rfl, hy⟩ | ⟨rfl, hx⟩)
        · exact hEF x y hxy
        · exact (hends y hy).1
        · exact (hends x hx).2
      · intro b hb
        rw [map_id_foldl_connectFill]
        exact hids b (List.mem_cons_of_mem a hb)

end Fill

section Remaining

variable {work : List Slot} {E : Nat → Nat → Prop}

theorem remains_iff {eliminated : List Nat} {id : Nat} :
    remains work eliminated id = true ↔ id ∈ work.map Slot.id ∧ id ∉ eliminated := by
  unfold remains
  simp only [List.any_eq_true, Bool.and_eq_true, beq_iff_eq, Bool.not_eq_true', List.mem_map]
  constructor
  · rintro ⟨s, hs, rfl, hnot⟩
    exact ⟨⟨s, hs, rfl⟩, by simpa using hnot⟩
  · rintro ⟨⟨s, hs, rfl⟩, hnot⟩
    exact ⟨s, hs, rfl, by simpa using hnot⟩

/-- The remaining neighbors of a node of the work list. -/
theorem Lists.mem_remaining (h : Lists work E) {eliminated : List Nat} {s : Slot} (hs : s ∈ work) {y : Nat} :
    y ∈ s.remaining work eliminated ↔ E s.id y ∧ y ∈ work.map Slot.id ∧ y ∉ eliminated := by
  rw [Slot.remaining, List.mem_filter, h.mem s hs, remains_iff]

theorem Lists.nodup_remaining (h : Lists work E) {eliminated : List Nat} {s : Slot} (hs : s ∈ work) :
    (s.remaining work eliminated).Nodup := (h.nodup s hs).filter _

end Remaining

/-! ### The elimination -/

/-- The ids of the nodes that are still to be eliminated, in the order of their positions. -/
def remainingIds (work : List Slot) (eliminated : List Nat) : List Nat :=
  (work.map Slot.id).filter fun id => !eliminated.contains id

section Eliminate

variable {work : List Slot} {eliminated : List Nat}

theorem mem_remainingIds {y : Nat} : y ∈ remainingIds work eliminated ↔ y ∈ work.map Slot.id ∧ y ∉ eliminated := by
  rw [remainingIds, List.mem_filter, Bool.not_eq_true', ← Bool.not_eq_true, List.contains_iff_mem]

theorem map_id_candidates : (work.filter fun slot => !eliminated.contains slot.id).map Slot.id =
    remainingIds work eliminated := by
  rw [remainingIds, List.filter_map]
  rfl

/-- Eliminating one more takes one id from the rest. -/
theorem remainingIds_cons (hids : (work.map Slot.id).Nodup) (v : Nat) :
    remainingIds work (v :: eliminated) = (remainingIds work eliminated).erase v := by
  unfold remainingIds
  rw [(hids.filter _).erase_eq_filter, List.filter_filter]
  refine List.filter_congr fun id _ => ?_
  rw [List.contains_cons, Bool.not_or]
  rfl

theorem remainingIds_congr {work' : List Slot} (hids : work'.map Slot.id = work.map Slot.id) :
    remainingIds work' eliminated = remainingIds work eliminated := by
  rw [remainingIds, hids, remainingIds]

/-- The candidate that a step takes. -/
theorem mem_of_argmin {f : Slot → Nat} {v : Slot}
    (hv : v ∈ (work.filter fun slot => !eliminated.contains slot.id).argmin f) :
    v ∈ work ∧ v.id ∈ remainingIds work eliminated := by
  have hmem := List.argmin_mem hv
  exact ⟨(List.mem_filter.mp hmem).1, map_id_candidates ▸ List.mem_map_of_mem hmem⟩

/-- One node fewer remains after a step. -/
theorem length_remainingIds_fillWork {n : Nat} {v : Slot} (hids : (work.map Slot.id).Nodup)
    (hv : v.id ∈ remainingIds work eliminated) (hlength : (remainingIds work eliminated).length ≤ n + 1)
    (nbrs : List Nat) : (remainingIds (fillWork work nbrs) (v.id :: eliminated)).length ≤ n := by
  rw [remainingIds_congr (map_id_fillWork nbrs work), remainingIds_cons hids, List.length_erase_of_mem hv]
  omega

/-- The elimination takes out every node that remains. -/
theorem eliminateMin_perm (n : Nat) : ∀ (work : List Slot) (eliminated : List Nat),
    (work.map Slot.id).Nodup → (remainingIds work eliminated).length ≤ n →
    ((eliminateMin n work eliminated).map Elimination.node).Perm (remainingIds work eliminated) := by
  induction n with
  | zero =>
      intro work eliminated _ hlength
      rw [List.length_eq_zero_iff.mp (Nat.le_zero.mp hlength)]
      rfl
  | succ n ih =>
      intro work eliminated hids hlength
      rw [eliminateMin]
      split
      · rename_i hmin
        rw [← map_id_candidates, List.argmin_eq_none.mp hmin]
        rfl
      · rename_i v hmin
        obtain ⟨_, hv⟩ := mem_of_argmin hmin
        let nbrs := v.remaining work eliminated
        have hrest := ih (fillWork work nbrs) (v.id :: eliminated)
          (by rw [map_id_fillWork]; exact hids) (length_remainingIds_fillWork hids hv hlength nbrs)
        rw [remainingIds_congr (map_id_fillWork nbrs work), remainingIds_cons hids] at hrest
        exact (hrest.cons v.id).trans (List.perm_cons_erase hv).symm

/-- The nodes that remain after one more is taken out. -/
def LaterThan (work : List Slot) (eliminated : List Nat) (v : Nat) (later : List Nat) : Prop :=
  ∀ y, y ∈ later ↔ y ≠ v ∧ y ∈ remainingIds work eliminated

theorem laterThan_of_perm {v : Nat} {later : List Nat} (hids : (work.map Slot.id).Nodup)
    (hperm : (v :: later).Perm (remainingIds work eliminated)) : LaterThan work eliminated v later := by
  intro y
  have hnot : v ∉ later := (List.nodup_cons.mp (hperm.nodup_iff.mpr (hids.filter _))).1
  rw [← hperm.mem_iff, List.mem_cons]
  exact ⟨fun hy => ⟨fun heq => hnot (heq ▸ hy), .inr hy⟩, fun hy => hy.2.resolve_left hy.1⟩

section Step

variable {G F : SimpleGraph Nat} {v : Slot} {later : List Nat}

/-- What a step connects: the neighbors among the later nodes. -/
theorem Lists.mem_nbrs (h : Lists work G.Adj) (hv : v ∈ work) (hlater : LaterThan work eliminated v.id later)
    {y : Nat} : y ∈ v.remaining work eliminated ↔ G.Adj v.id y ∧ y ∈ later := by
  rw [h.mem_remaining hv, ← mem_remainingIds, hlater]
  exact ⟨fun hy => ⟨hy.1, hy.1.ne', hy.2⟩, fun hy => ⟨hy.1, hy.2.2⟩⟩

/-- The degree of a step. -/
theorem Lists.countP_later [DecidableRel G.Adj] (h : Lists work G.Adj) (hv : v ∈ work)
    (hlater : LaterThan work eliminated v.id later) (hnodup : later.Nodup) :
    later.countP (fun u => G.Adj v.id u) = (v.remaining work eliminated).length := by
  rw [List.countP_eq_length_filter]
  refine List.Perm.length_eq ((List.perm_ext_iff_of_nodup (hnodup.filter _)
    (h.nodup_remaining hv)).mpr fun y => ?_)
  rw [List.mem_filter, h.mem_nbrs hv hlater, decide_eq_true_eq, and_comm]

/-- The neighbors of a step are nodes of the work list, each once. -/
theorem Lists.nbrs_mem (h : Lists work G.Adj) (hv : v ∈ work) (hlater : LaterThan work eliminated v.id later) :
    ∀ a ∈ v.remaining work eliminated, a ∈ work.map Slot.id :=
  fun a ha => (mem_remainingIds.mp ((hlater a).mp ((h.mem_nbrs hv hlater).mp ha).2).2).1

/-- A step whose fill has room is the elimination among the later nodes. -/
theorem Lists.eliminate (h : Lists work G.Adj) (hv : v ∈ work) (hlater : LaterThan work eliminated v.id later)
    (hroom : fillRoom work (v.remaining work eliminated)) :
    Lists (SotFs.fillWork work (v.remaining work eliminated)) (fillAmong G later v.id).Adj := by
  have hnbrs := fun {y} => h.mem_nbrs hv hlater (y := y)
  refine (h.fillWork _ (fun x y hxy => hxy.symm) hroom (h.nbrs_mem hv hlater)
    (h.nodup_remaining hv)).congr fun x y => ?_
  rw [hnbrs, hnbrs]
  constructor
  · rintro (hxy | ⟨hne, ⟨hvx, hx⟩, hvy, hy⟩)
    · exact ⟨hxy.ne, .inl hxy⟩
    · exact ⟨hne, .inr ⟨hx, hy, hvx, hvy⟩⟩
  · rintro ⟨hne, hxy | ⟨hx, hy, hvx, hvy⟩⟩
    · exact .inl hxy
    · exact .inr ⟨hne, ⟨hvx, hx⟩, hvy, hy⟩

/-- A step has room if no node is wide in the graph with its fill. -/
theorem Lists.eliminate_room (h : Lists work G.Adj) (hv : v ∈ work)
    (hlater : LaterThan work eliminated v.id later) (hF : Narrow F.Adj) (hle : fillAmong G later v.id ≤ F) :
    fillRoom work (v.remaining work eliminated) := by
  have hnbrs := fun {y} => h.mem_nbrs hv hlater (y := y)
  refine h.fillRoom_of_narrow hF _ (fun x y hxy => hxy.symm) (fun x y hxy => hle ⟨hxy.ne, .inl hxy⟩)
    (h.nbrs_mem hv hlater) (h.nodup_remaining hv) fun a ha b hb hab => ?_
  obtain ⟨hva, ha⟩ := hnbrs.mp ha
  obtain ⟨hvb, hb⟩ := hnbrs.mp hb
  exact hle ⟨hab, .inr ⟨ha, hb, hva, hvb⟩⟩

end Step

/-- As long as the fill edges have room, the degrees of the steps are those of their order. By induction on
    the steps: the fill of a step is that of its node among the later ones. -/
theorem eliminateMin_laterDegrees (n : Nat) : ∀ {work : List Slot} {eliminated : List Nat}
    {G : SimpleGraph Nat}, Lists work G.Adj → (remainingIds work eliminated).length ≤ n →
    eliminateRoom n work eliminated →
    (eliminateMin n work eliminated).map Elimination.stepWidth =
      laterDegrees G ((eliminateMin n work eliminated).map Elimination.node) := by
  classical
  induction n with
  | zero => exact fun _ _ _ => rfl
  | succ n ih =>
      intro work eliminated G h hlength hroom
      have hperm := eliminateMin_perm (n + 1) _ _ h.ids hlength
      rw [eliminateMin] at hperm ⊢
      rw [eliminateRoom] at hroom
      cases hmin : (work.filter fun slot => !eliminated.contains slot.id).argmin
          fun slot => (slot.remaining work eliminated).length with
      | none => rfl
      | some v =>
          obtain ⟨hvmem, hv⟩ := mem_of_argmin hmin
          simp only [hmin, List.map_cons, Bool.and_eq_true] at hperm hroom ⊢
          have hlater := laterThan_of_perm h.ids hperm
          have hnodup := (List.nodup_cons.mp (hperm.nodup_iff.mpr (h.ids.filter _))).2
          have hdegrees := ih (h.eliminate hvmem hlater hroom.1)
            (length_remainingIds_fillWork h.ids hv hlength _) hroom.2
          rw [laterDegrees, ← laterDegrees_fillAmong, ← hdegrees, h.countP_later hvmem hlater hnodup]

end Eliminate

/-! ### Bounds -/

/-- Every list is within its array. -/
def Bounded (work : List Slot) : Prop := ∀ s ∈ work, s.adj.length ≤ MAX_DEGREE

section Bounds

variable {work : List Slot}

theorem Lists.bounded {E : Nat → Nat → Prop} (h : Lists work E) (hE : Narrow E) : Bounded work := by
  intro s hs
  rw [← List.toFinset_card_of_nodup (h.nodup s hs)]
  exact hE s.id _ fun y hy => (h.mem s hs y).mp (List.mem_toFinset.mp hy)

theorem Bounded.connectFill (h : Bounded work) (a b : Nat) : Bounded (connectFill work a b) := by
  have hpush : ∀ {s : Slot} {y}, s ∈ work → (s.pushFill y).adj.length ≤ MAX_DEGREE := by
    intro s y hs
    unfold Slot.pushFill
    split
    · rename_i hlt
      rw [List.length_append, List.length_singleton]
      exact hlt
    · exact h s hs
  unfold SotFs.connectFill
  split
  · exact h
  · intro t ht
    obtain ⟨s, hs, rfl⟩ := List.mem_map.mp ht
    split
    · exact hpush hs
    · split
      · exact hpush hs
      · exact h s hs

theorem Bounded.fillWork (l : List Nat) : ∀ {work : List Slot}, Bounded work → Bounded (fillWork work l) := by
  have hfold : ∀ (a : Nat) (rest : List Nat) {work : List Slot}, Bounded work →
      Bounded (rest.foldl (fun work b => SotFs.connectFill work a b) work) := by
    intro a rest
    induction rest with
    | nil => exact fun h => h
    | cons b rest ih => exact fun h => ih (h.connectFill a b)
  induction l with
  | nil => exact fun h => h
  | cons a rest ih => exact fun h => ih (hfold a rest h)

/-- No step counts more neighbors than a list holds. -/
theorem Bounded.stepWidth_le (n : Nat) : ∀ {work : List Slot} {eliminated : List Nat}, Bounded work →
    ∀ step ∈ eliminateMin n work eliminated, step.stepWidth ≤ MAX_DEGREE := by
  induction n with
  | zero => exact fun _ _ hstep => absurd hstep List.not_mem_nil
  | succ n ih =>
      intro work eliminated h step hstep
      rw [eliminateMin] at hstep
      split at hstep
      · exact absurd hstep List.not_mem_nil
      · rename_i v hmin
        rcases List.mem_cons.mp hstep with rfl | hstep
        · exact (List.length_filter_le _ _).trans (h v (mem_of_argmin hmin).1)
        · exact ih (h.fillWork _) step hstep

theorem foldl_max_le {steps : List Elimination} {k : Nat} (h : ∀ step ∈ steps, step.stepWidth ≤ k) :
    ∀ width ≤ k, steps.foldl (fun width step => max width step.stepWidth) width ≤ k := by
  induction steps with
  | nil => exact fun _ hw => hw
  | cons step steps ih =>
      obtain ⟨hstep, hrest⟩ := List.forall_mem_cons.mp h
      exact fun width hw => ih hrest _ (max_le hw hstep)

theorem maxWidth_le {steps : List Elimination} {k : Nat} (h : ∀ step ∈ steps, step.stepWidth ≤ k) :
    maxWidth steps ≤ k := foldl_max_le h 0 (Nat.zero_le k)

end Bounds

end SotFs
