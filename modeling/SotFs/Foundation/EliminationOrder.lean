/-
Module: SotFs.Foundation.EliminationOrder
Layer: Foundation
Purpose: Elimination orders of a graph and their widths. Taking out the vertices of a list in turn, each with
  its remaining neighbours made a clique, gives the number of later neighbours of each; the largest of them
  is the width of the order and bounds the treewidth. Vertices without neighbours change nothing when they
  are left out, and vertices with at most one neighbour change no other degree when they come first.
Trusted boundary: none
Main exports: laterDegrees, IsEliminationWidth, laterDegrees_map, laterDegrees_take,
  TreewidthLE.of_laterDegrees, filledAlong, laterDegrees_filter, laterDegrees_pendants_append,
  exists_laterDegree_pos, IsEliminationWidth.pendants_iff
-/
import SotFs.Foundation.TreeDecomposition

namespace Foundation

open Classical in
/-- The numbers of later neighbours of the vertices of a list that are taken out in its order. -/
noncomputable def laterDegrees {V : Type*} (G : SimpleGraph V) : List V → List ℕ
  | [] => []
  | v :: l => l.countP (fun u => G.Adj v u) :: laterDegrees (fillAt G v) l

/-- Some order of the vertices has width `k`: each has at most `k` later neighbours, and one has that many. -/
def IsEliminationWidth {V : Type*} (G : SimpleGraph V) (nodes : List V) (k : ℕ) : Prop :=
  ∃ order, order.Perm nodes ∧ (∀ d ∈ laterDegrees G order, d ≤ k) ∧ (nodes ≠ [] → k ∈ laterDegrees G order)

section Degrees

variable {V W : Type*} {G H : SimpleGraph V}

theorem length_laterDegrees (l : List V) : ∀ G : SimpleGraph V, (laterDegrees G l).length = l.length := by
  induction l with
  | nil => exact fun _ => rfl
  | cons v l ih =>
      intro G
      rw [laterDegrees, List.length_cons, ih, List.length_cons]

/-- A copy of a graph has the degrees of the graph. -/
theorem laterDegrees_map {f : W → V} (l : List W) : ∀ {G : SimpleGraph V} {H : SimpleGraph W},
    (∀ a ∈ l, ∀ b ∈ l, f a = f b → a = b) → (∀ a ∈ l, ∀ b ∈ l, (H.Adj a b ↔ G.Adj (f a) (f b))) →
    laterDegrees G (l.map f) = laterDegrees H l := by
  induction l with
  | nil => exact fun _ _ => rfl
  | cons v l ih =>
      intro G H hinj hadj
      have hv : v ∈ v :: l := List.mem_cons_self
      have hl : ∀ {a}, a ∈ l → a ∈ v :: l := List.mem_cons_of_mem v
      rw [List.map_cons, laterDegrees, laterDegrees, List.countP_map]
      congr 1
      · refine List.countP_congr fun u hu => ?_
        simp only [Function.comp_apply, decide_eq_true_eq]
        exact (hadj v hv u (hl hu)).symm
      · refine ih (fun a ha b hb => hinj a (hl ha) b (hl hb)) fun a ha b hb => ?_
        have hne : a ≠ b ↔ f a ≠ f b :=
          not_congr ⟨congrArg f, hinj a (hl ha) b (hl hb)⟩
        exact and_congr hne (or_congr (hadj a (hl ha) b (hl hb))
          (and_congr (hadj v hv a (hl ha)) (hadj v hv b (hl hb))))

/-- The degrees depend only on the edges between the vertices of the list. -/
theorem laterDegrees_congr {l : List V} (hadj : ∀ a ∈ l, ∀ b ∈ l, (H.Adj a b ↔ G.Adj a b)) :
    laterDegrees G l = laterDegrees H l := by
  have hmap := laterDegrees_map (f := id) l (G := G) (H := H) (fun _ _ _ _ heq => heq) hadj
  rwa [List.map_id] at hmap

/-- The degrees of the first vertices of an order depend only on their own edges, and on which of their
    neighbours come later. By induction on these vertices: the fill edges of one at the others are those of its
    neighbours. -/
theorem laterDegrees_take {rest rest' : List V} (l : List V) : ∀ {G H : SimpleGraph V}, (l ++ rest).Nodup →
    (l ++ rest').Nodup → (∀ x ∈ l, ∀ y, H.Adj x y ↔ G.Adj x y) →
    (∀ x ∈ l, ∀ y, G.Adj x y → (y ∈ rest ↔ y ∈ rest')) →
    (laterDegrees G (l ++ rest)).take l.length = (laterDegrees H (l ++ rest')).take l.length := by
  classical
  induction l with
  | nil => exact fun _ _ _ _ => rfl
  | cons v l ih =>
      intro G H hnodup hnodup' hadj hlater
      have hv := hadj v List.mem_cons_self
      rw [List.cons_append, List.cons_append, laterDegrees, laterDegrees, List.length_cons, List.take_succ_cons,
        List.take_succ_cons]
      obtain ⟨_, hnodup⟩ := List.nodup_cons.mp hnodup
      obtain ⟨_, hnodup'⟩ := List.nodup_cons.mp hnodup'
      congr 1
      · have hrest : rest.countP (fun u => G.Adj v u) = rest'.countP (fun u => H.Adj v u) := by
          rw [List.countP_eq_length_filter, List.countP_eq_length_filter]
          refine List.Perm.length_eq ((List.perm_ext_iff_of_nodup
            ((List.nodup_append'.mp hnodup).2.1.filter _)
            ((List.nodup_append'.mp hnodup').2.1.filter _)).mpr fun y => ?_)
          rw [List.mem_filter, List.mem_filter, decide_eq_true_eq, decide_eq_true_eq, hv]
          exact and_congr_left fun hy => hlater v List.mem_cons_self y hy
        have hl : l.countP (fun u => G.Adj v u) = l.countP (fun u => H.Adj v u) :=
          List.countP_congr fun y _ => by simp [hv]
        rw [List.countP_append, List.countP_append, hrest, hl]
      · refine ih hnodup hnodup' (fun x hx y => ?_) fun x hx y hxy => ?_
        · have hx := hadj x (List.mem_cons_of_mem v hx)
          exact and_congr_right fun _ => or_congr (hx y) (and_congr (hv x) (hv y))
        · rcases hxy with ⟨_, hxy | ⟨_, hvy⟩⟩
          · exact hlater x (List.mem_cons_of_mem v hx) y hxy
          · exact hlater v List.mem_cons_self y hvy

/-- The number of neighbours in a list without repetition bounds the degree. -/
theorem degreeLE_of_countP [DecidableEq V] [DecidableRel G.Adj] {v : V} {l : List V} {k : ℕ}
    (hle : l.countP (fun u => G.Adj v u) ≤ k) : DegreeLE G (v :: l).toFinset v k := by
  intro N hN
  refine (Finset.card_le_card (t := (l.filter fun u => G.Adj v u).toFinset) fun u hu => ?_).trans ?_
  · obtain ⟨hmem, hadj⟩ := hN u hu
    rw [List.mem_toFinset, List.mem_filter]
    refine ⟨(List.mem_cons.mp (List.mem_toFinset.mp hmem)).resolve_left hadj.ne', ?_⟩
    simpa using hadj
  · refine (List.toFinset_card_le _).trans ?_
    rwa [← List.countP_eq_length_filter]

/-- The width of an order bounds the treewidth. By induction on the order: the first vertex is added back to a
    decomposition of what is left. -/
theorem TreewidthLE.of_laterDegrees [DecidableEq V] {k : ℕ} (l : List V) : ∀ {G : SimpleGraph V}, l.Nodup →
    (∀ d ∈ laterDegrees G l, d ≤ k) → TreewidthLE G l.toFinset k := by
  induction l with
  | nil => exact fun _ _ => .empty _ k
  | cons v l ih =>
      intro G hnodup hle
      obtain ⟨hv, hl⟩ := List.nodup_cons.mp hnodup
      rw [laterDegrees, List.forall_mem_cons] at hle
      have hrest := ih hl hle.2
      refine TreewidthLE.of_fillAt (v := v) ?_ (by simp) ?_
      · rwa [List.toFinset_cons, Finset.erase_insert (by simpa using hv)]
      · classical
        refine degreeLE_of_countP ?_
        convert hle.1

/-- The width of an order of all vertices is an upper bound on the treewidth. -/
theorem IsEliminationWidth.treewidthLE [DecidableEq V] {nodes : List V} {k : ℕ}
    (h : IsEliminationWidth G nodes k) (hnodup : nodes.Nodup) : TreewidthLE G nodes.toFinset k := by
  obtain ⟨order, hperm, hle, _⟩ := h
  rw [← List.toFinset_eq_of_perm _ _ hperm]
  exact .of_laterDegrees order (hperm.nodup_iff.mpr hnodup) hle

/-- An order with an edge has a positive degree: the end that comes first has the other as a later
    neighbour. -/
theorem exists_laterDegree_pos {a b : V} (l : List V) : ∀ {G : SimpleGraph V}, G.Adj a b → a ∈ l → b ∈ l →
    ∃ d ∈ laterDegrees G l, 1 ≤ d := by
  classical
  induction l with
  | nil => exact fun _ ha => absurd ha (List.not_mem_nil)
  | cons v l ih =>
      intro G hadj ha hb
      have hfirst : ∀ {u}, G.Adj v u → u ∈ v :: l → ∃ d ∈ laterDegrees G (v :: l), 1 ≤ d := by
        intro u hvu hu
        refine ⟨_, List.mem_cons_self, List.countP_pos_iff.mpr ⟨u, ?_, by simpa using hvu⟩⟩
        exact (List.mem_cons.mp hu).resolve_left hvu.ne'
      rcases List.mem_cons.mp ha with rfl | ha'
      · exact hfirst hadj hb
      · rcases List.mem_cons.mp hb with rfl | hb'
        · exact hfirst hadj.symm ha
        · obtain ⟨d, hd, hpos⟩ := ih (G := fillAt G v) ⟨hadj.ne, .inl hadj⟩ ha' hb'
          exact ⟨d, List.mem_cons_of_mem _ hd, hpos⟩

/-- A positive degree needs an edge: one that the fill adds comes with two of the vertex taken out. -/
theorem exists_adj_of_laterDegree {d : ℕ} (hpos : 1 ≤ d) (l : List V) : ∀ {G : SimpleGraph V},
    d ∈ laterDegrees G l → ∃ a ∈ l, ∃ b ∈ l, G.Adj a b := by
  induction l with
  | nil => exact fun hd => absurd hd List.not_mem_nil
  | cons v l ih =>
      intro G hd
      rcases List.mem_cons.mp hd with rfl | hd
      · obtain ⟨u, hu, hvu⟩ := List.countP_pos_iff.mp hpos
        exact ⟨v, List.mem_cons_self, u, List.mem_cons_of_mem v hu, by simpa using hvu⟩
      · obtain ⟨a, ha, b, hb, _, hab | ⟨hva, _⟩⟩ := ih hd
        · exact ⟨a, List.mem_cons_of_mem v ha, b, List.mem_cons_of_mem v hb, hab⟩
        · exact ⟨v, List.mem_cons_self, a, List.mem_cons_of_mem v ha, hva⟩

end Degrees

/-! ### The filled graph -/

section Filled

variable {V : Type*} {G H : SimpleGraph V}

/-- The elimination of a vertex among the vertices of a list: its neighbours there become a clique. -/
def fillAmong (G : SimpleGraph V) (l : List V) (v : V) : SimpleGraph V where
  Adj a b := a ≠ b ∧ (G.Adj a b ∨ (a ∈ l ∧ b ∈ l ∧ G.Adj v a ∧ G.Adj v b))
  symm := ⟨by
    rintro a b ⟨hne, hab | ⟨ha, hb, hva, hvb⟩⟩
    · exact ⟨hne.symm, .inl hab.symm⟩
    · exact ⟨hne.symm, .inr ⟨hb, ha, hvb, hva⟩⟩⟩
  loopless := ⟨fun _ h => h.1 rfl⟩

/-- The graph with all fill edges of an order, the vertices that were taken out included. -/
def filledAlong (G : SimpleGraph V) : List V → SimpleGraph V
  | [] => G
  | v :: l => filledAlong (fillAmong G l v) l

theorem le_filledAlong (l : List V) : ∀ {G : SimpleGraph V}, G ≤ filledAlong G l := by
  induction l with
  | nil => exact fun {G} => le_refl G
  | cons v l ih =>
      intro G
      have hfill : G ≤ fillAmong G l v := fun a b hab => ⟨hab.ne, .inl hab⟩
      exact hfill.trans ih

/-- Fill edges join vertices of the order. -/
theorem filledAlong_adj {a b : V} (l : List V) : ∀ {G : SimpleGraph V}, (filledAlong G l).Adj a b →
    G.Adj a b ∨ a ∈ l ∧ b ∈ l := by
  induction l with
  | nil => exact .inl
  | cons v l ih =>
      intro G hab
      rcases ih hab with ⟨_, hab | ⟨ha, hb, _⟩⟩ | ⟨ha, hb⟩
      · exact .inl hab
      · exact .inr ⟨List.mem_cons_of_mem v ha, List.mem_cons_of_mem v hb⟩
      · exact .inr ⟨List.mem_cons_of_mem v ha, List.mem_cons_of_mem v hb⟩

/-- Later degrees see only the fill among later vertices. -/
theorem laterDegrees_fillAmong_of_subset {v : V} {l later : List V} (hsub : ∀ a ∈ l, a ∈ later) :
    laterDegrees (fillAmong G later v) l = laterDegrees (fillAt G v) l := by
  refine laterDegrees_congr fun a ha b hb => ?_
  constructor
  · rintro ⟨hne, hab | ⟨hva, hvb⟩⟩
    · exact ⟨hne, .inl hab⟩
    · exact ⟨hne, .inr ⟨hsub a ha, hsub b hb, hva, hvb⟩⟩
  · rintro ⟨hne, hab | ⟨_, _, hva, hvb⟩⟩
    · exact ⟨hne, .inl hab⟩
    · exact ⟨hne, .inr ⟨hva, hvb⟩⟩

theorem laterDegrees_fillAmong (v : V) (l : List V) :
    laterDegrees (fillAmong G l v) l = laterDegrees (fillAt G v) l :=
  laterDegrees_fillAmong_of_subset fun _ ha => ha

end Filled

/-! ### Vertices that do not matter -/

section Leaves

variable {V : Type*} {G H : SimpleGraph V} {leaf : V → Prop} [DecidablePred leaf] {nodes : List V} {k : ℕ}

/-- Vertices without neighbours are left out of an order. -/
theorem laterDegrees_filter {d : ℕ} (hd : d ≠ 0) (l : List V) : ∀ {G : SimpleGraph V},
    (∀ v ∈ l, leaf v → ∀ u ∈ l, ¬ G.Adj v u) →
    (d ∈ laterDegrees G (l.filter fun v => ¬ leaf v) ↔ d ∈ laterDegrees G l) := by
  classical
  induction l with
  | nil => exact fun _ => Iff.rfl
  | cons v l ih =>
      intro G hleaf
      have hl : ∀ {a}, a ∈ l → a ∈ v :: l := List.mem_cons_of_mem v
      have hlone : ∀ a ∈ l, leaf a → ∀ u ∈ l, ¬ (fillAt G v).Adj a u := by
        rintro a ha hleafA u hu ⟨_, hau | ⟨hva, _⟩⟩
        · exact hleaf a (hl ha) hleafA u (hl hu) hau
        · exact hleaf a (hl ha) hleafA v List.mem_cons_self hva.symm
      by_cases hv : leaf v
      · -- it has no neighbours, so nothing is filled
        have hnone : ∀ u ∈ l, ¬ G.Adj v u := fun u hu => hleaf v List.mem_cons_self hv u (hl hu)
        have hcount : l.countP (fun u => G.Adj v u) = 0 :=
          List.countP_eq_zero.mpr fun u hu => by simpa using hnone u hu
        have hsame : laterDegrees (fillAt G v) l = laterDegrees G l := by
          refine laterDegrees_congr fun a ha b hb => ?_
          exact ⟨fun hab => ⟨hab.ne, .inl hab⟩, fun hab => hab.2.resolve_right fun h => hnone a ha h.1⟩
        rw [List.filter_cons_of_neg (by simpa using hv), laterDegrees, hcount, hsame, List.mem_cons,
          ih fun a ha hleafA u hu => hleaf a (hl ha) hleafA u (hl hu)]
        exact (or_iff_right hd).symm
      · have hcount : (l.filter fun v => ¬ leaf v).countP (fun u => G.Adj v u) =
            l.countP (fun u => G.Adj v u) := by
          rw [List.countP_filter]
          refine List.countP_congr fun u hu => ?_
          simp only [Bool.and_eq_true, decide_eq_true_eq]
          exact ⟨And.left, fun hvu => ⟨hvu, fun hu' => hleaf u (hl hu) hu' v List.mem_cons_self hvu.symm⟩⟩
        rw [List.filter_cons_of_pos (by simpa using hv), laterDegrees, laterDegrees, hcount, List.mem_cons,
          List.mem_cons, ih hlone]

/-- Vertices with at most one neighbour are taken out first, and nothing is filled. -/
theorem laterDegrees_pendants_append (leaves rest : List V) (hnodup : (leaves ++ rest).Nodup)
    (hone : ∀ v ∈ leaves, ∀ a ∈ leaves ++ rest, ∀ b ∈ leaves ++ rest, G.Adj v a → G.Adj v b → a = b) :
    ∃ ds, laterDegrees G (leaves ++ rest) = ds ++ laterDegrees G rest ∧ ∀ d ∈ ds, d ≤ 1 := by
  classical
  induction leaves with
  | nil => exact ⟨[], rfl, by simp⟩
  | cons v leaves ih =>
      rw [List.cons_append] at hnodup
      obtain ⟨_, hnodup⟩ := List.nodup_cons.mp hnodup
      have hl : ∀ {a}, a ∈ leaves ++ rest → a ∈ v :: leaves ++ rest := List.mem_cons_of_mem v
      have hv := hone v List.mem_cons_self
      obtain ⟨ds, heq, hds⟩ := ih hnodup fun u hu a ha b hb =>
        hone u (List.mem_cons_of_mem v hu) a (hl ha) b (hl hb)
      have hsame : laterDegrees (fillAt G v) (leaves ++ rest) = laterDegrees G (leaves ++ rest) := by
        refine laterDegrees_congr fun a ha b hb => ?_
        exact ⟨fun hab => ⟨hab.ne, .inl hab⟩, fun hab => hab.2.resolve_right fun h =>
          hab.1 (hv a (hl ha) b (hl hb) h.1 h.2)⟩
      refine ⟨_ :: ds, by rw [List.cons_append, laterDegrees, hsame, heq, List.cons_append], ?_⟩
      refine List.forall_mem_cons.mpr ⟨?_, hds⟩
      rw [List.countP_eq_length_filter, ← List.toFinset_card_of_nodup (hnodup.filter _)]
      refine Finset.card_le_one.mpr fun a ha b hb => ?_
      simp only [List.mem_toFinset, List.mem_filter, decide_eq_true_eq] at ha hb
      exact hv a (hl ha.1) b (hl hb.1) ha.2 hb.2

/-- A width stays one when vertices without neighbours get at most one each, unless these are the only
    edges. -/
theorem IsEliminationWidth.pendants_iff (leaf : V → Prop) [DecidablePred leaf]
    (h : IsEliminationWidth G nodes k) (hnodup : nodes.Nodup)
    (hlone : ∀ v ∈ nodes, leaf v → ∀ u ∈ nodes, ¬ G.Adj v u)
    (hone : ∀ v ∈ nodes, leaf v → ∀ a ∈ nodes, ∀ b ∈ nodes, H.Adj v a → H.Adj v b → a = b)
    (hsame : ∀ a ∈ nodes, ∀ b ∈ nodes, ¬ leaf a → ¬ leaf b → (H.Adj a b ↔ G.Adj a b)) :
    IsEliminationWidth H nodes k ↔
      ((∃ a ∈ nodes, ∃ b ∈ nodes, H.Adj a b) → ∃ a ∈ nodes, ∃ b ∈ nodes, G.Adj a b) := by
  obtain ⟨order, hperm, hle, hk⟩ := h
  have hmem : ∀ {v}, v ∈ order ↔ v ∈ nodes := hperm.mem_iff
  constructor
  · rintro ⟨order', hperm', hle', _⟩ ⟨a, ha, b, hb, hab⟩
    obtain ⟨d, hd, hpos⟩ := exists_laterDegree_pos order' hab (hperm'.mem_iff.mpr ha) (hperm'.mem_iff.mpr hb)
    have hdeg := hk (List.ne_nil_of_mem ha)
    obtain ⟨u, hu, w, hw, huw⟩ := exists_adj_of_laterDegree (hpos.trans (hle' d hd)) order hdeg
    exact ⟨u, hmem.mp hu, w, hmem.mp hw, huw⟩
  · intro hedges
    by_cases hedge : ∃ a ∈ nodes, ∃ b ∈ nodes, G.Adj a b
    · obtain ⟨a, ha, b, hb, hab⟩ := hedge
      obtain ⟨d, hd, hpos⟩ := exists_laterDegree_pos order hab (hmem.mpr ha) (hmem.mpr hb)
      have hkpos : 1 ≤ k := hpos.trans (hle d hd)
      have hsplit : (order.filter (fun v => leaf v) ++ order.filter fun v => ¬ leaf v).Perm order := by
        simpa using List.filter_append_perm (fun v => leaf v) order
      have hin : ∀ {v}, v ∈ order.filter (fun v => leaf v) ++ (order.filter fun v => ¬ leaf v) → v ∈ nodes :=
        fun hv => hmem.mp (hsplit.mem_iff.mp hv)
      obtain ⟨ds, heq, hds⟩ := laterDegrees_pendants_append (G := H) _ _
        ((hsplit.trans hperm).nodup_iff.mpr hnodup) fun v hv a ha b hb =>
          hone v (hin (List.mem_append_left _ hv)) (by simpa using (List.mem_filter.mp hv).2) a (hin ha) b
            (hin hb)
      have hrest : laterDegrees H (order.filter fun v => ¬ leaf v) =
          laterDegrees G (order.filter fun v => ¬ leaf v) := by
        refine laterDegrees_congr fun a ha b hb => ?_
        obtain ⟨ha, hleafA⟩ := List.mem_filter.mp ha
        obtain ⟨hb, hleafB⟩ := List.mem_filter.mp hb
        exact (hsame a (hmem.mp ha) b (hmem.mp hb) (by simpa using hleafA) (by simpa using hleafB)).symm
      have hfilter : ∀ {d}, d ≠ 0 →
          (d ∈ laterDegrees G (order.filter fun v => ¬ leaf v) ↔ d ∈ laterDegrees G order) := fun hd =>
        laterDegrees_filter hd order fun v hv hleaf u hu => hlone v (hmem.mp hv) hleaf u (hmem.mp hu)
      refine ⟨_, hsplit.trans hperm, ?_, fun hne => ?_⟩
      · intro d hd
        rw [heq, hrest] at hd
        rcases List.mem_append.mp hd with hd | hd
        · exact (hds d hd).trans hkpos
        · by_cases hzero : d = 0
          · exact hzero ▸ Nat.zero_le k
          · exact hle d ((hfilter hzero).mp hd)
      · rw [heq, hrest]
        exact List.mem_append_right _ ((hfilter (Nat.one_le_iff_ne_zero.mp hkpos)).mpr (hk hne))
    · -- without an edge the two graphs are the same
      have hnone : ∀ a ∈ order, ∀ b ∈ order, (H.Adj a b ↔ G.Adj a b) := fun a ha b hb =>
        iff_of_false (fun hab => hedge (hedges ⟨a, hmem.mp ha, b, hmem.mp hb, hab⟩))
          fun hab => hedge ⟨a, hmem.mp ha, b, hmem.mp hb, hab⟩
      rw [laterDegrees_congr hnone] at hle hk
      exact ⟨order, hperm, hle, hk⟩

end Leaves

end Foundation
